import FtlOs.Kernel.RangeMap.Split
import FtlOs.Kernel.Syscall.Mmap

/-!
# Changing the permission of a range: `mprotect`

`MapSegment::modify_perm` first checks, changing nothing, that the range is
covered by handlers that follow one another without a gap and whose `max_perm`
admits the new permission.  Then it cuts the handlers at both ends of the range
and gives every handler inside it the new permission, together with the valid
entries of its pages: all of them for a shared mapping, the unshared ones for a
copy-on-write mapping, whose shared pages keep theirs until the write fault.
`sys_mprotect` computes the range and the permission it is called with.

A handler is modelled by what these calls read of it: its permission, its
`max_perm`, fixed when it is made, and `shared_always`.  The `split_r` of every
handler kind copies the three (`box_clone_spec`).  A page-table entry is its
bits, and the page table is the valid entries by page.
-/

namespace FtlOs

namespace PageTableEntry

/-- `PTE_SHARED`, a bit the kernel keeps for itself. -/
def sharedBit : UInt64 := 0x100

/-- `PageTableEntry::shared`. -/
def shared (bits : UInt64) : Bool := bits &&& sharedBit != 0

/-- `PageTableEntry::set_rwx`: the `R`, `W` and `X` bits of `flag`, every other
bit kept. -/
def setRwx (bits : UInt64) (flag : Nat) : UInt64 :=
  let mask : UInt64 := (PTEFlags.R ||| PTEFlags.W ||| PTEFlags.X).toUInt64
  (bits &&& ~~~mask) ||| (flag.toUInt64 &&& mask)

end PageTableEntry

/-- A user area handler, by what `modify_perm` reads and writes of it. -/
structure AreaHandler where
  /-- `perm()`. -/
  perm : Nat
  /-- `max_perm()`: read, write, execute and user for an anonymous area, and
  for a file mapping what the file allows. -/
  maxPerm : Nat
  /-- `shared_always()`: a `MAP_SHARED` mapping. -/
  sharedAlways : Bool
  deriving DecidableEq, Repr

namespace AreaHandler

/-- `new_perm_check`: every flag of `perm` is in `max_perm`. -/
def newPermCheck (h : AreaHandler) (perm : Nat) : Except Unit Unit :=
  if perm &&& h.maxPerm = perm then .ok () else .error ()

/-- `modify_perm` of every handler kind: the permission replaced. -/
def modifyPerm (h : AreaHandler) (perm : Nat) : AreaHandler := { h with perm }

/-- `split_r`: `box_clone_spec`, whose copy keeps the permission, the
`max_perm` and the sharing. -/
def splitR : RangeMap.Split Nat AreaHandler := RangeMap.cloneSplit

@[simp] theorem newPermCheck_eq_ok_iff {h : AreaHandler} {perm : Nat} :
    h.newPermCheck perm = .ok () ↔ perm &&& h.maxPerm = perm := by
  unfold AreaHandler.newPermCheck
  split_ifs with admits <;> simp [admits]

@[simp] theorem sharedAlways_modifyPerm (h : AreaHandler) (perm : Nat) :
    (h.modifyPerm perm).sharedAlways = h.sharedAlways := rfl

@[simp] theorem perm_modifyPerm (h : AreaHandler) (perm : Nat) :
    (h.modifyPerm perm).perm = perm := rfl

@[simp] theorem maxPerm_modifyPerm (h : AreaHandler) (perm : Nat) :
    (h.modifyPerm perm).maxPerm = h.maxPerm := rfl

end AreaHandler

/-- `HandlerManager::split_at_maybe`: the map's, with the handlers' `split_r`. -/
def HandlerManager.splitAtMaybe {H : Type} (hm : HandlerManager H) (p : Nat)
    (splitR : RangeMap.Split Nat H) : Option (HandlerManager H) :=
  (hm.map.splitAtMaybe p splitR).map HandlerManager.mk

namespace Mprotect

/-- The parts of a `MapSegment` that `modify_perm` reads and writes: the
handlers by page, and the valid page-table entries by page. -/
structure MapSegment where
  handlers : HandlerManager AreaHandler
  ptes : Nat → Option UInt64

/-- The loop of `modify_perm` over the handlers starting in the range: each one
other than the first handler's must start where the last one ended, and admit
`perm`.  Returns where the last one ends. -/
def checkLoop (perm first : Nat) : Nat → List (Nat × Node Nat AreaHandler) → SysR Nat
  | curEnd, [] => .ok curEnd
  | curEnd, (start, node) :: rest =>
      if start = first then checkLoop perm first curEnd rest
      else if start ≠ curEnd then .error .EFAULT
      else
        match node.value.newPermCheck perm with
        | .error () => .error .EACCES
        | .ok () => checkLoop perm first node.stop rest

/-- The first phase of `modify_perm`, which changes nothing: the handler at
`r.start`, then the loop, then the end reached. -/
def check (hm : HandlerManager AreaHandler) (r : Range Nat) (perm : Nat) : SysR Unit :=
  match hm.map.getRv r.start with
  | none => .error .EFAULT
  | some (sr, sh) =>
      match sh.newPermCheck perm with
      | .error () => .error .EACCES
      | .ok () =>
          match checkLoop perm sr.start sr.stop (hm.map.nodes.rangeIn r.start r.stop) with
          | .error e => .error e
          | .ok curEnd => if curEnd < r.stop then .error .EFAULT else .ok ()

/-- The entry of a valid page after its handler gets `perm`: `set_rwx` for a
shared mapping, and for a copy-on-write one unless the page is shared. -/
def permEntry (sharedAlways : Bool) (perm : Nat) (bits : UInt64) : UInt64 :=
  if sharedAlways || !PageTableEntry.shared bits then PageTableEntry.setRwx bits perm else bits

/-- The `valid_pte_iter(xr)` loop of one handler. -/
def setRange (ptes : Nat → Option UInt64) (xr : Range Nat) (sharedAlways : Bool) (perm : Nat) :
    Nat → Option UInt64 := fun page =>
  if xr.start ≤ page ∧ page < xr.stop then (ptes page).map (permEntry sharedAlways perm)
  else ptes page

/-- The loop of `modify_perm` over `range_mut(r)`: each handler takes `perm`,
then the entries of its pages. -/
def permLoop (perm : Nat) :
    OrdMap Nat (Node Nat AreaHandler) × (Nat → Option UInt64) → List (Nat × Node Nat AreaHandler) →
      OrdMap Nat (Node Nat AreaHandler) × (Nat → Option UInt64)
  | acc, [] => acc
  | (nodes, ptes), (start, node) :: rest =>
      permLoop perm (nodes.modify start (fun n => ⟨n.stop, n.value.modifyPerm perm⟩),
        setRange ptes ⟨start, node.stop⟩ (node.value.modifyPerm perm).sharedAlways perm) rest

/-- `MapSegment::modify_perm`: the check, the cuts at both ends, the loop.  The
page table is flushed by the caller.  `none` is a panic of a cut. -/
def MapSegment.modifyPerm (ms : MapSegment) (r : Range Nat) (perm : Nat) :
    Option (SysR Unit × MapSegment) :=
  match check ms.handlers r perm with
  | .error e => some (.error e, ms)
  | .ok () => do
      let hm ← ms.handlers.splitAtMaybe r.start AreaHandler.splitR
      let hm ← hm.splitAtMaybe r.stop AreaHandler.splitR
      let (nodes, ptes) := permLoop perm (hm.map.nodes, ms.ptes) (hm.map.nodes.rangeIn r.start r.stop)
      return (.ok (), ⟨⟨⟨nodes⟩⟩, ptes⟩)

/-- `Syscall::sys_mprotect` on the address space: the pages from the page of
`addr` to the end of `len`, with the permission of `prot`'s declared bits. -/
def MapSegment.sysMprotect (ms : MapSegment) (addr len prot : Nat) :
    Option (SysR Nat × MapSegment) :=
  -- `as_uptr_nullable`: past `USER_END` is `EFAULT`
  if userEnd < addr then some (.error .EFAULT, ms)
  else
    let start := addr / pageSize
    -- `add_page_checked(page_ceil(len))`: the sum wraps, and past `USER_END` is `EFAULT`
    let stopByte := (start * pageSize + pageCeil len * pageSize) % 2 ^ 64
    if userEnd < stopByte then some (.error .EFAULT, ms)
    else
      let perm := MmapProt.intoPerm (MmapProt.fromBitsTruncate prot)
      (ms.modifyPerm ⟨start, stopByte / pageSize⟩ perm).map fun (result, ms) =>
        (result.map fun () => 0, ms)

open RangeMap

/-! ## The check -/

section Check

variable {m : RangeMap Nat AreaHandler} {r : Range Nat} {perm : Nat}

/-- Every point of `[r.start, cur)` is covered, and every node reaching into
that part of `r` admits `perm`: what the check has seen when it reaches `cur`. -/
def Checked (m : RangeMap Nat AreaHandler) (r : Range Nat) (perm cur : Nat) : Prop :=
  (∀ x, r.start ≤ x → x < cur → m.Covers x) ∧
    ∀ e ∈ m.nodes.entries, e.1 < cur → r.start < e.2.stop → perm &&& e.2.value.maxPerm = perm

/-- Where the check loop stands: `L` holds, in order, the nodes starting from
`cur` to the end of `r`, besides perhaps the first handler's, and every node
starting below `cur` ends by `cur`. -/
structure CheckFrom (m : RangeMap Nat AreaHandler) (r : Range Nat) (first cur : Nat)
    (L : List (Nat × Node Nat AreaHandler)) : Prop where
  sorted : L.Pairwise fun a b => a.1 < b.1
  sub : ∀ e ∈ L, e ∈ m.nodes.entries ∧ e.1 < r.stop ∧ (e.1 = first ∨ cur ≤ e.1)
  complete : ∀ e ∈ m.nodes.entries, cur ≤ e.1 → e.1 < r.stop → e ∈ L
  below : ∀ e ∈ m.nodes.entries, e.1 < cur → e.2.stop ≤ cur
  firstBelow : first < cur
  started : r.start < cur

/-- Skipping the first handler's node keeps the loop's footing. -/
theorem CheckFrom.skip {first cur : Nat} {e : Nat × Node Nat AreaHandler}
    {rest : List (Nat × Node Nat AreaHandler)} (at_ : CheckFrom m r first cur (e :: rest))
    (isFirst : e.1 = first) : CheckFrom m r first cur rest where
  sorted := (List.pairwise_cons.mp at_.sorted).2
  sub := fun d member => at_.sub d (List.mem_cons_of_mem e member)
  complete := by
    intro d member from_ below
    rcases List.mem_cons.mp (at_.complete d member from_ below) with rfl | later
    · exact absurd (isFirst ▸ at_.firstBelow) (not_lt.mpr from_)
    · exact later
  below := at_.below
  firstBelow := at_.firstBelow
  started := at_.started

/-- Passing the node at `cur` moves the loop to its end. -/
theorem CheckFrom.step (wf : m.WellFormed) {first cur : Nat} {n : Node Nat AreaHandler}
    {rest : List (Nat × Node Nat AreaHandler)} (at_ : CheckFrom m r first cur ((cur, n) :: rest)) :
    CheckFrom m r first n.stop rest := by
  obtain ⟨member, -, -⟩ := at_.sub (cur, n) List.mem_cons_self
  have separated := (wellFormed_iff.mp wf).2
  have nonempty := (wellFormed_iff.mp wf).1 _ member
  have later : ∀ d ∈ rest, cur < d.1 := fun d inRest => (List.pairwise_cons.mp at_.sorted).1 d inRest
  refine ⟨(List.pairwise_cons.mp at_.sorted).2, ?_, ?_, ?_, ?_, ?_⟩
  · intro d inRest
    obtain ⟨old, belowStop, -⟩ := at_.sub d (List.mem_cons_of_mem _ inRest)
    exact ⟨old, belowStop, .inr (separated (cur, n) member d old (later d inRest))⟩
  · intro d old from_ below
    rcases List.mem_cons.mp (at_.complete d old (by simp at nonempty; omega) below) with rfl | inRest
    · exact absurd from_ (not_le.mpr nonempty)
    · exact inRest
  · intro d old before
    rcases lt_trichotomy d.1 cur with earlier | same | after
    · exact (at_.below d old earlier).trans (le_of_lt nonempty)
    · rw [OrdMap.eq_of_key_eq old member same]
    · exact absurd (separated (cur, n) member d old after) (not_le.mpr before)
  · exact at_.firstBelow.trans nonempty
  · exact at_.started.trans nonempty

/-- Passing the node at `cur`, which admits `perm`, extends what the check has seen. -/
theorem Checked.step (wf : m.WellFormed) {first cur : Nat} {n : Node Nat AreaHandler}
    {rest : List (Nat × Node Nat AreaHandler)} (at_ : CheckFrom m r first cur ((cur, n) :: rest))
    (seen : Checked m r perm cur) (admits : perm &&& n.value.maxPerm = perm) :
    Checked m r perm n.stop := by
  obtain ⟨member, -, -⟩ := at_.sub (cur, n) List.mem_cons_self
  have separated := (wellFormed_iff.mp wf).2
  refine ⟨fun x from_ below => ?_, fun e old before reaches => ?_⟩
  · by_cases earlier : x < cur
    · exact seen.1 x from_ earlier
    · exact ⟨(cur, n), member, not_lt.mp earlier, below⟩
  · rcases lt_trichotomy e.1 cur with earlier | same | after
    · exact seen.2 e old earlier reaches
    · rw [OrdMap.eq_of_key_eq old member same]
      exact admits
    · exact absurd (separated (cur, n) member e old after) (not_le.mpr before)

/-- The loop only returns when what it has seen reaches the end it returns. -/
theorem checked_of_checkLoop (wf : m.WellFormed) {first : Nat} :
    ∀ {cur c : Nat} {L : List (Nat × Node Nat AreaHandler)}, CheckFrom m r first cur L →
      Checked m r perm cur → checkLoop perm first cur L = .ok c → Checked m r perm c
  | _, _, [], _, seen, looped => by
    cases looped
    exact seen
  | cur, c, (start, node) :: rest, at_, seen, looped => by
    unfold checkLoop at looped
    by_cases isFirst : start = first
    · rw [if_pos isFirst] at looped
      exact checked_of_checkLoop wf (at_.skip isFirst) seen looped
    · rw [if_neg isFirst] at looped
      by_cases gap : start ≠ cur
      · rw [if_pos gap] at looped
        cases looped
      · obtain rfl : start = cur := not_not.mp gap
        rw [if_neg gap] at looped
        split at looped
        · cases looped
        · next admits =>
          exact checked_of_checkLoop wf (at_.step wf) (seen.step wf at_
            (AreaHandler.newPermCheck_eq_ok_iff.mp admits)) looped

/-- On a covered range whose nodes admit `perm`, the loop reaches past its end. -/
theorem checkLoop_of_covered (wf : m.WellFormed)
    (covered : ∀ x, r.start ≤ x → x < r.stop → m.Covers x)
    (admitted : ∀ e ∈ m.nodes.entries, Meets r e → perm &&& e.2.value.maxPerm = perm) {first : Nat} :
    ∀ {cur : Nat} {L : List (Nat × Node Nat AreaHandler)}, CheckFrom m r first cur L →
      ∃ c, checkLoop perm first cur L = .ok c ∧ r.stop ≤ c
  | cur, [], at_ => by
    refine ⟨cur, rfl, le_of_not_gt fun short => ?_⟩
    -- `cur` itself would be a point of `r` that no node holds
    obtain ⟨e, member, atMost, inside⟩ := covered cur at_.started.le short
    rcases lt_or_eq_of_le atMost with earlier | same
    · exact absurd (at_.below e member earlier) (not_le.mpr inside)
    · exact absurd (at_.complete e member same.ge (same ▸ short)) List.not_mem_nil
  | cur, (start, node) :: rest, at_ => by
    obtain ⟨member, belowStop, firstOr⟩ := at_.sub (start, node) List.mem_cons_self
    unfold checkLoop
    by_cases isFirst : start = first
    · rw [if_pos isFirst]
      exact checkLoop_of_covered wf covered admitted (at_.skip isFirst)
    · rw [if_neg isFirst]
      have from_ : cur ≤ start := firstOr.resolve_left isFirst
      by_cases gap : start ≠ cur
      · -- `cur` lies before the next node and after every earlier one
        exfalso
        obtain ⟨e, old, atMost, inside⟩ :=
          covered cur at_.started.le (lt_of_lt_of_le (lt_of_le_of_ne from_ (Ne.symm gap)) belowStop.le)
        rcases lt_or_eq_of_le atMost with earlier | same
        · exact absurd (at_.below e old earlier) (not_le.mpr inside)
        · rcases List.mem_cons.mp (at_.complete e old same.ge (by
              have := lt_of_le_of_ne from_ (Ne.symm gap); omega)) with rfl | inRest
          · exact gap same
          · have := (List.pairwise_cons.mp at_.sorted).1 e inRest
            simp only at this
            omega
      · obtain rfl : start = cur := not_not.mp gap
        rw [if_neg gap]
        have admits := admitted (start, node) member ⟨belowStop, lt_of_lt_of_le at_.started
          (le_of_lt ((wellFormed_iff.mp wf).1 _ member))⟩
        rw [(AreaHandler.newPermCheck_eq_ok_iff.mpr admits)]
        exact checkLoop_of_covered wf covered admitted (at_.step wf)

/-- The loop starts at the end of the node holding `r.start`, over the nodes
starting in `r`. -/
theorem checkFrom_start (wf : m.WellFormed) {e : Nat × Node Nat AreaHandler}
    (member : e ∈ m.nodes.entries) (inside : e.1 ≤ r.start ∧ r.start < e.2.stop) :
    CheckFrom m r e.1 e.2.stop (m.nodes.rangeIn r.start r.stop) := by
  have separated := (wellFormed_iff.mp wf).2
  have nonempty := (wellFormed_iff.mp wf).1 e member
  refine ⟨m.nodes.sorted.filter _, fun d listed => ?_, fun d old from_ below => ?_,
    fun d old before => ?_, nonempty, inside.2⟩
  · obtain ⟨old, from_, below⟩ := OrdMap.mem_rangeIn.mp listed
    refine ⟨old, below, ?_⟩
    rcases lt_trichotomy d.1 e.1 with earlier | same | after
    · omega
    · exact .inl same
    · exact .inr (separated e member d old after)
  · exact OrdMap.mem_rangeIn.mpr ⟨old, by omega, below⟩
  · rcases lt_trichotomy d.1 e.1 with earlier | same | after
    · exact (separated d old e member earlier).trans nonempty.le
    · rw [OrdMap.eq_of_key_eq old member same]
    · exact absurd (separated e member d old after) (not_le.mpr before)

/-- Before the loop the check has seen the node holding `r.start`. -/
theorem checked_start (wf : m.WellFormed) {e : Nat × Node Nat AreaHandler}
    (member : e ∈ m.nodes.entries) (inside : e.1 ≤ r.start ∧ r.start < e.2.stop)
    (admits : perm &&& e.2.value.maxPerm = perm) : Checked m r perm e.2.stop := by
  have separated := (wellFormed_iff.mp wf).2
  refine ⟨fun x from_ below => ⟨e, member, inside.1.trans from_, below⟩,
    fun d old before reaches => ?_⟩
  rcases lt_trichotomy d.1 e.1 with earlier | same | after
  · have := separated d old e member earlier
    omega
  · rw [OrdMap.eq_of_key_eq old member same]
    exact admits
  · exact absurd (separated e member d old after) (not_le.mpr before)

/-- The check passes exactly when `r` is covered and every node meeting it
admits `perm`. -/
theorem check_eq_ok_iff {hm : HandlerManager AreaHandler} (wf : hm.map.WellFormed)
    (nonempty : r.start < r.stop) :
    check hm r perm = .ok () ↔ (∀ x, r.start ≤ x → x < r.stop → hm.map.Covers x) ∧
      ∀ e ∈ hm.map.nodes.entries, Meets r e → perm &&& e.2.value.maxPerm = perm := by
  unfold check
  by_cases startCovered : hm.map.Covers r.start
  · obtain ⟨e, member, inside⟩ := startCovered
    rw [(lookups_of_contains wf member inside).2.2]
    dsimp only
    by_cases admits : perm &&& e.2.value.maxPerm = perm
    · rw [AreaHandler.newPermCheck_eq_ok_iff.mpr admits]
      dsimp only
      have first := checkFrom_start wf member inside
      constructor
      · intro checked
        split at checked
        · cases checked
        · next c looped =>
          have reached : r.stop ≤ c := by
            by_contra short
            rw [if_pos (lt_of_not_ge short)] at checked
            cases checked
          have seen := checked_of_checkLoop wf first (checked_start wf member inside admits) looped
          exact ⟨fun x from_ below => seen.1 x from_ (lt_of_lt_of_le below reached),
            fun d old meets => seen.2 d old (lt_of_lt_of_le meets.1 reached) meets.2⟩
      · rintro ⟨covered, admitted⟩
        obtain ⟨c, looped, reached⟩ := checkLoop_of_covered wf covered admitted first
        rw [looped]
        simp [not_lt.mpr reached]
    · have refused : e.2.value.newPermCheck perm = .error () := by
        unfold AreaHandler.newPermCheck
        rw [if_neg admits]
      rw [refused]
      simp only [reduceCtorEq, false_iff, not_and]
      intro _ admitted
      exact admits (admitted e member ⟨lt_of_le_of_lt inside.1 nonempty, inside.2⟩)
  · rw [(lookups_of_not_contains fun e member inside => startCovered ⟨e, member, inside⟩).2.2]
    simp only [reduceCtorEq, false_iff, not_and]
    intro covered
    exact absurd (covered r.start le_rfl nonempty) startCovered

end Check

/-! ## The change -/

section Change

variable {perm : Nat}

theorem permLoop_fst (perm : Nat) : ∀ (L : List (Nat × Node Nat AreaHandler)) nodes ptes,
    (permLoop perm (nodes, ptes) L).1 =
      L.foldl (fun acc e => acc.modify e.1 fun n => ⟨n.stop, n.value.modifyPerm perm⟩) nodes
  | [], _, _ => rfl
  | _ :: rest, _, _ => permLoop_fst perm rest _ _

theorem permLoop_snd (perm : Nat) : ∀ (L : List (Nat × Node Nat AreaHandler)) nodes ptes,
    (permLoop perm (nodes, ptes) L).2 =
      L.foldl (fun ptes e => setRange ptes ⟨e.1, e.2.stop⟩ e.2.value.sharedAlways perm) ptes
  | [], _, _ => rfl
  | _ :: rest, _, _ => permLoop_snd perm rest _ _

/-- A page no handler of the loop holds keeps its entry. -/
theorem foldl_setRange_outside : ∀ (L : List (Nat × Node Nat AreaHandler)) ptes (page : Nat),
    (∀ e ∈ L, ¬ (e.1 ≤ page ∧ page < e.2.stop)) →
      L.foldl (fun ptes e => setRange ptes ⟨e.1, e.2.stop⟩ e.2.value.sharedAlways perm) ptes page =
        ptes page
  | [], _, _, _ => rfl
  | e :: rest, ptes, page, outside => by
    rw [List.foldl_cons, foldl_setRange_outside rest _ page fun d member =>
      outside d (List.mem_cons_of_mem e member)]
    exact if_neg (outside e List.mem_cons_self)

/-- A page held by a handler of the loop, whose ranges are apart, gets the entry
that handler's sharing says. -/
theorem foldl_setRange_inside : ∀ (L : List (Nat × Node Nat AreaHandler)) ptes (page : Nat)
    (e : Nat × Node Nat AreaHandler), L.Pairwise (fun a b => a.2.stop ≤ b.1) → e ∈ L →
      e.1 ≤ page ∧ page < e.2.stop →
      L.foldl (fun ptes e => setRange ptes ⟨e.1, e.2.stop⟩ e.2.value.sharedAlways perm) ptes page =
        (ptes page).map (permEntry e.2.value.sharedAlways perm)
  | d :: rest, ptes, page, e, apart, member, inside => by
    rw [List.foldl_cons]
    rcases List.mem_cons.mp member with rfl | later
    · -- every later handler starts after `page`
      rw [foldl_setRange_outside rest _ page fun d' member' within =>
        absurd ((List.pairwise_cons.mp apart).1 d' member') (by omega)]
      exact if_pos inside
    · rw [foldl_setRange_inside rest _ page e (List.pairwise_cons.mp apart).2 later inside]
      have before := (List.pairwise_cons.mp apart).1 e later
      have notD : ¬ (d.1 ≤ page ∧ page < d.2.stop) := by omega
      simp only [setRange, if_neg notD]

/-- The nodes starting in a range of a well-formed map are apart. -/
theorem rangeIn_apart {m : RangeMap Nat AreaHandler} (wf : m.WellFormed) (a b : Nat) :
    (m.nodes.rangeIn a b).Pairwise fun d e => d.2.stop ≤ e.1 :=
  (m.nodes.sorted.filter _).imp_of_mem fun memberD memberE keyLt =>
    (wellFormed_iff.mp wf).2 _ (OrdMap.mem_rangeIn.mp memberD).1 _ (OrdMap.mem_rangeIn.mp memberE).1
      keyLt

/-- What `modify_perm` leaves when it succeeds: the handlers cut at both ends of
`r`, those inside with `perm` and those outside as they were, and the valid
entries of the pages of `r` changed as their handler's sharing says, the others
as they were. -/
structure Protected (ms ms' : MapSegment) (r : Range Nat) (perm : Nat) : Prop where
  wellFormed : ms'.handlers.map.WellFormed
  get : ∀ x, ms'.handlers.map.get x = if r.start ≤ x ∧ x < r.stop then
    (ms.handlers.map.get x).map (·.modifyPerm perm) else ms.handlers.map.get x
  permInside : ∀ x h, r.start ≤ x → x < r.stop → ms'.handlers.map.get x = some h → h.perm = perm
  cutStart : ms'.handlers.map.CutAt r.start
  cutStop : ms'.handlers.map.CutAt r.stop
  startBound : ∃ n, (r.start, n) ∈ ms'.handlers.map.nodes.entries
  stopBound : ∃ e ∈ ms'.handlers.map.nodes.entries, e.2.stop = r.stop
  ptesInside : ∀ page h, r.start ≤ page → page < r.stop → ms.handlers.map.get page = some h →
    ms'.ptes page = (ms.ptes page).map (permEntry h.sharedAlways perm)
  ptesOutside : ∀ page, ¬ (r.start ≤ page ∧ page < r.stop) → ms'.ptes page = ms.ptes page

/-- After the check, `modify_perm` is the two cuts, then `mapIn` on the handlers
and the loop on the entries. -/
theorem modifyPerm_eq_of_check {ms : MapSegment} {r : Range Nat} {m₁ m₂ : RangeMap Nat AreaHandler}
    (passed : check ms.handlers r perm = .ok ())
    (cut₁ : ms.handlers.map.splitAtMaybe r.start cloneSplit = some m₁)
    (cut₂ : m₁.splitAtMaybe r.stop cloneSplit = some m₂) :
    ms.modifyPerm r perm = some (.ok (), ⟨⟨m₂.mapIn r.start r.stop (·.modifyPerm perm)⟩,
      (m₂.nodes.rangeIn r.start r.stop).foldl
        (fun ptes e => setRange ptes ⟨e.1, e.2.stop⟩ e.2.value.sharedAlways perm) ms.ptes⟩) := by
  unfold MapSegment.modifyPerm
  rw [passed]
  simp only [HandlerManager.splitAtMaybe, AreaHandler.splitR, cut₁, cut₂, Option.map_some,
    Option.bind_eq_bind, Option.bind_some]
  rw [← foldl_modify_rangeIn, ← permLoop_fst perm _ _ ms.ptes, ← permLoop_snd perm _ m₂.nodes]
  rfl

/-- After the check passes, `modify_perm` returns `Ok` and leaves what
`Protected` says. -/
theorem modifyPerm_of_check {ms : MapSegment} {r : Range Nat} (wf : ms.handlers.map.WellFormed)
    (nonempty : r.start < r.stop) (passed : check ms.handlers r perm = .ok ()) :
    ∃ ms', ms.modifyPerm r perm = some (.ok (), ms') ∧ Protected ms ms' r perm := by
  have covered := ((check_eq_ok_iff wf nonempty).mp passed).1
  obtain ⟨m₁, cut₁, wf₁, get₁, atStart₁, -⟩ := splitAtMaybe_cloneSplit wf r.start
  obtain ⟨m₂, cut₂, wf₂, get₂, atStop, keep₂⟩ := splitAtMaybe_cloneSplit wf₁ r.stop
  have atStart := keep₂ r.start atStart₁
  have same : ∀ x, m₂.get x = ms.handlers.map.get x := fun x => (get₂ x).trans (get₁ x)
  have covered₂ : ∀ x, r.start ≤ x → x < r.stop → m₂.Covers x := fun x from_ below =>
    ((covers_iff_of_get wf wf₂ same x).mpr (covered x from_ below))
  -- the loop's handlers are exactly the nodes of `m₂` holding the points of `r`
  have listed : ∀ e ∈ m₂.nodes.entries, ∀ x, e.1 ≤ x ∧ x < e.2.stop →
      (e ∈ m₂.nodes.rangeIn r.start r.stop ↔ r.start ≤ x ∧ x < r.stop) := fun e member x inside => by
    rw [OrdMap.mem_rangeIn, ← starts_in_iff atStart atStop member inside]
    exact and_iff_right member
  have got : ∀ x, (m₂.mapIn r.start r.stop (·.modifyPerm perm)).get x =
      if r.start ≤ x ∧ x < r.stop then (ms.handlers.map.get x).map (·.modifyPerm perm)
      else ms.handlers.map.get x := fun x => by
    simp only [get_mapIn _ wf₂ atStart atStop, same]
  refine ⟨_, modifyPerm_eq_of_check passed cut₁ cut₂, ⟨mapIn_wellFormed _ wf₂, got,
    fun x h from_ below found => ?_, atStart.mapIn, atStop.mapIn, ?_, ?_,
    fun page h from_ below found => ?_, fun page outside => ?_⟩⟩
  · -- inside `r` every handler is an old one with `perm` set
    rw [got, if_pos ⟨from_, below⟩] at found
    obtain ⟨old, -, rfl⟩ := Option.map_eq_some_iff.mp found
    exact AreaHandler.perm_modifyPerm old perm
  · obtain ⟨d, member, atMost, inside⟩ := covered₂ r.start le_rfl nonempty
    have starts : d.1 = r.start := le_antisymm atMost (le_of_not_gt fun before =>
      atStart d member ⟨before, inside⟩)
    obtain ⟨n, mapped, -⟩ := mem_mapIn_of_mem (a := r.start) (b := r.stop) (f := (·.modifyPerm perm)) member
    exact ⟨n, starts ▸ mapped⟩
  · obtain ⟨d, member, atMost, inside⟩ := covered₂ (r.stop - 1) (by omega) (by omega)
    have ends : d.2.stop = r.stop := le_antisymm (le_of_not_gt fun past =>
      atStop d member ⟨by omega, past⟩) (by omega)
    obtain ⟨n, mapped, stops⟩ := mem_mapIn_of_mem (a := r.start) (b := r.stop) (f := (·.modifyPerm perm)) member
    exact ⟨(d.1, n), mapped, stops.trans ends⟩
  · rw [← same] at found
    obtain ⟨e, member, inside, rfl⟩ := (get_eq_some_iff wf₂).mp found
    exact foldl_setRange_inside _ _ page e (rangeIn_apart wf₂ _ _)
      ((listed e member page inside).mpr ⟨from_, below⟩) inside
  · refine foldl_setRange_outside _ _ page fun e listedE inside => outside ?_
    exact (listed e (OrdMap.mem_rangeIn.mp listedE).1 page inside).mp listedE

/-- `modify_perm` on a well-formed handler map and a nonempty range never
panics and is all or nothing: it returns `Ok` exactly when the range is covered
by handlers admitting `perm`, leaves the address space as it was otherwise, and
on `Ok` changes the handlers and the page entries inside the range only. -/
theorem modifyPerm_atomic_exact (ms : MapSegment) (wf : ms.handlers.map.WellFormed) (r : Range Nat)
    (nonempty : r.start < r.stop) (perm : Nat) :
    ∃ result ms', ms.modifyPerm r perm = some (result, ms') ∧
      (result = .ok () ↔ (∀ x, r.start ≤ x → x < r.stop → ms.handlers.map.Covers x) ∧
        ∀ e ∈ ms.handlers.map.nodes.entries, Meets r e → perm &&& e.2.value.maxPerm = perm) ∧
      (result ≠ .ok () → ms' = ms) ∧
      (result = .ok () → Protected ms ms' r perm) := by
  cases passed : check ms.handlers r perm with
  | error e =>
    refine ⟨.error e, ms, by simp [MapSegment.modifyPerm, passed], ?_, fun _ => rfl, ?_⟩
    · rw [← check_eq_ok_iff wf nonempty, passed]
    · intro wrong
      cases wrong
  | ok u =>
    obtain ⟨ms', changed, protectedBy⟩ := modifyPerm_of_check wf nonempty passed
    exact ⟨.ok (), ms', changed, iff_of_true rfl ((check_eq_ok_iff wf nonempty).mp passed),
      fun wrong => absurd rfl wrong, fun _ => protectedBy⟩

/-- Pages 16 to 19 anonymous and writable, pages 20 to 23 a private mapping of a
file opened read-only. -/
def twoAreas : MapSegment :=
  ⟨⟨⟨⟨[(16, ⟨20, ⟨0x16, 0x1E, false⟩⟩), (20, ⟨24, ⟨0x12, 0x1A, false⟩⟩)], by decide⟩⟩⟩,
    fun page => if 16 ≤ page ∧ page < 24 then some 0xD7 else none⟩

/-- Making pages 18 to 21 read-only succeeds, cutting both areas; making them
writable fails with the address space untouched, the file being read-only. -/
theorem modifyPerm_atomic_exact_twoAreas :
    (∃ ms', twoAreas.modifyPerm ⟨18, 22⟩ 0x12 = some (.ok (), ms') ∧
      Protected twoAreas ms' ⟨18, 22⟩ 0x12) ∧
    ∃ e, twoAreas.modifyPerm ⟨18, 22⟩ 0x16 = some (.error e, twoAreas) := by
  have wf : twoAreas.handlers.map.WellFormed := by decide
  have covered : ∀ x, 18 ≤ x → x < 22 → twoAreas.handlers.map.Covers x := by
    intro x from_ below
    by_cases first : x < 20
    · exact ⟨(16, ⟨20, ⟨0x16, 0x1E, false⟩⟩), List.mem_cons_self, by dsimp only; omega,
        by dsimp only; omega⟩
    · exact ⟨(20, ⟨24, ⟨0x12, 0x1A, false⟩⟩), List.mem_cons_of_mem _ List.mem_cons_self,
        by dsimp only; omega, by dsimp only; omega⟩
  have fileArea : (20, (⟨24, ⟨0x12, 0x1A, false⟩⟩ : Node Nat AreaHandler)) ∈
      twoAreas.handlers.map.nodes.entries := List.mem_cons_of_mem _ List.mem_cons_self
  refine ⟨?_, ?_⟩
  · obtain ⟨result, ms', changed, exact, -, protectedBy⟩ :=
      modifyPerm_atomic_exact twoAreas wf ⟨18, 22⟩ (by decide) 0x12
    have passes : result = .ok () := by
      refine exact.mpr ⟨covered, fun e member _ => ?_⟩
      rcases List.mem_cons.mp member with rfl | member
      · decide
      · rcases List.mem_cons.mp member with rfl | member
        · decide
        · cases member
    subst passes
    exact ⟨ms', changed, protectedBy rfl⟩
  · obtain ⟨result, ms', changed, exact, unchanged, -⟩ :=
      modifyPerm_atomic_exact twoAreas wf ⟨18, 22⟩ (by decide) 0x16
    have fails : result ≠ .ok () := fun passes =>
      absurd ((exact.mp passes).2 _ fileArea ⟨by decide, by decide⟩) (by decide)
    obtain ⟨e, rfl⟩ : ∃ e, result = .error e := by
      cases result with
      | error e => exact ⟨e, rfl⟩
      | ok u => exact absurd rfl fails
    exact ⟨e, unchanged fails ▸ changed⟩

end Change

end Mprotect

end FtlOs
