import FtlOs.Kernel.Signal.Manager

/-!
# The realtime signal queue

`signal/rtqueue.rs` keeps the queued realtime signals twice: in one doubly linked list
in arrival order, and in one singly linked list per signal (`table`), with the set
`exist` of the signals that have a list.  A node carries `sig_union`: an access id in
its high 48 bits, its signal in the low 16.  `fetch` scans the first `DIRECT_FETCH`
nodes of the main list for one the mask lets through; past them it means to take, of
the heads of the signals' lists, the one of least access id, found with
`SignalSet::bit_fold`.

The lists are lists of nodes here, a node known by the ghost id of its allocation.
The abstract queue is `RTQueue` of `Signal.Manager`, the list of the signals in
arrival order.  `receive`, `can_fetch`, the direct scan of `fetch` and `fork` refine
it.  The slow path does not return: `bit_fold` never clears the bit it has just
visited, so on a nonempty set it calls its closure on that bit for ever.  `fetch`
therefore hangs as soon as the first `DIRECT_FETCH` queued signals are blocked and a
later one is not.
-/

namespace FtlOs

namespace Signal

/-! ## `SignalSet` as its one `usize` -/

namespace SignalWord

/-- `1 << (sig % usize::BITS)`. -/
def bit (sig : Nat) : UInt64 := 1 <<< sig.toUInt64

/-- `SignalSet::get_bit`. -/
def getBit (w : UInt64) (sig : Nat) : Bool := w &&& bit sig != 0

/-- `SignalSet::insert_bit`. -/
def insertBit (w : UInt64) (sig : Nat) : UInt64 := w ||| bit sig

/-- `SignalSet::remove_bit`. -/
def removeBit (w : UInt64) (sig : Nat) : UInt64 := w &&& ~~~bit sig

/-- `A & !B`: `SignalSet::remove`. -/
def remove (a b : UInt64) : UInt64 := a &&& ~~~b

/-- `SignalSet::can_fetch`: `A & !B != 0`. -/
def canFetch (a mask : UInt64) : Bool := a &&& ~~~mask != 0

/-- `usize::trailing_zeros`: 64 for zero. -/
def trailingZeros (w : UInt64) : UInt64 :=
  (((List.range 64).find? fun i => w.toNat.testBit i).getD 64).toUInt64

/-- The inner loop of `SignalSet::bit_fold` on a nonzero word, with fuel: `none` when
the closure panics or the fuel runs out. -/
def bitFoldLoop {A : Type} (f : UInt32 → A → Option A) : Nat → UInt64 → UInt32 → A → Option A
  | 0, _, _, _ => none
  | fuel + 1, src, p, acc =>
    let t := trailingZeros src
    let p := p + t.toUInt32
    let src := src >>> t
    if src = 0 then some acc
    else
      match f p acc with
      | some acc => bitFoldLoop f fuel src p acc
      | none => none

/-- `SignalSet::bit_fold` on the one word of a `SignalSet`. -/
def bitFold {A : Type} (w : UInt64) (acc : A) (f : UInt32 → A → Option A) (fuel : Nat) :
    Option A :=
  if w = 0 then some acc else bitFoldLoop f fuel w 0 acc

/-- The signals of a word. -/
def toSet (w : UInt64) : SigSet := fun s => w.toNat.testBit s

/-! ### The bits of the operations -/

theorem testBit_of_le {w : UInt64} {i : Nat} (high : 64 ≤ i) : w.toNat.testBit i = false :=
  Nat.testBit_lt_two_pow (lt_of_lt_of_le w.toNat_lt (Nat.pow_le_pow_right (by norm_num) high))

theorem eq_zero_iff (w : UInt64) : w = 0 ↔ ∀ i, w.toNat.testBit i = false := by
  constructor
  · rintro rfl i
    simp
  · intro clear
    exact UInt64.toNat_inj.mp (by simpa using Nat.zero_of_testBit_eq_false clear)

theorem testBit_not (m : UInt64) (i : Nat) :
    (~~~m).toNat.testBit i = (decide (i < 64) && !m.toNat.testBit i) := by
  rw [← UInt64.toNat_toBitVec, ← UInt64.toNat_toBitVec, ← BitVec.getLsbD, ← BitVec.getLsbD]
  simp

theorem testBit_bit (sig i : Nat) : (bit sig).toNat.testBit i = decide (sig % 64 = i) := by
  have small : 2 ^ (sig % 64) < 2 ^ 64 := Nat.pow_lt_pow_right (by norm_num) (Nat.mod_lt _ (by norm_num))
  have value : (bit sig).toNat = 2 ^ (sig % 64) := by
    simp only [bit, UInt64.toNat_shiftLeft, UInt64.toNat_one, Nat.one_shiftLeft, Nat.toUInt64_eq,
      UInt64.toNat_ofNat']
    rw [Nat.mod_mod_of_dvd _ (by norm_num : 64 ∣ 2 ^ 64), Nat.mod_eq_of_lt small]
  rw [value, Nat.testBit_two_pow]

/-- `get_bit` reads the bit at the signal modulo 64, as the shift does. -/
theorem getBit_eq (w : UInt64) (sig : Nat) : getBit w sig = w.toNat.testBit (sig % 64) := by
  have clear := eq_zero_iff (w &&& bit sig)
  cases reads : w.toNat.testBit (sig % 64)
  · -- every bit of the conjunction is clear
    have zero : w &&& bit sig = 0 := clear.mpr fun i => by
      rw [UInt64.toNat_and, Nat.testBit_and, testBit_bit]
      by_cases at_i : sig % 64 = i
      · subst at_i
        simp [reads]
      · simp [at_i]
    simp [getBit, zero]
  · have nonzero : w &&& bit sig ≠ 0 := fun zero => by
      have := (clear.mp zero) (sig % 64)
      rw [UInt64.toNat_and, Nat.testBit_and, testBit_bit, reads] at this
      simp at this
    simp [getBit, nonzero]

theorem testBit_insertBit (w : UInt64) (sig i : Nat) :
    (insertBit w sig).toNat.testBit i = (w.toNat.testBit i || decide (sig % 64 = i)) := by
  rw [insertBit, UInt64.toNat_or, Nat.testBit_or, testBit_bit]

theorem testBit_removeBit (w : UInt64) (sig i : Nat) :
    (removeBit w sig).toNat.testBit i = (w.toNat.testBit i && !decide (sig % 64 = i)) := by
  rw [removeBit, UInt64.toNat_and, Nat.testBit_and, testBit_not, testBit_bit]
  by_cases low : i < 64
  · simp [low]
  · simp [low, testBit_of_le (Nat.le_of_not_lt low)]

theorem testBit_remove (a m : UInt64) (i : Nat) :
    (remove a m).toNat.testBit i = (a.toNat.testBit i && !m.toNat.testBit i) := by
  rw [remove, UInt64.toNat_and, Nat.testBit_and, testBit_not]
  by_cases low : i < 64
  · simp [low]
  · simp [low, testBit_of_le (Nat.le_of_not_lt low)]

theorem canFetch_iff (a m : UInt64) :
    canFetch a m = true ↔ ∃ i, a.toNat.testBit i = true ∧ m.toNat.testBit i = false := by
  have zero := eq_zero_iff (remove a m)
  simp only [testBit_remove] at zero
  have unfolded : canFetch a m = (remove a m != 0) := rfl
  rw [unfolded, bne_iff_ne, ne_eq, zero, not_forall]
  constructor
  · rintro ⟨i, set⟩
    exact ⟨i, by simpa using set⟩
  · rintro ⟨i, inA, outM⟩
    exact ⟨i, by simp [inA, outM]⟩

/-! ### `bit_fold` does not return on a nonempty set -/

theorem trailingZeros_spec {w : UInt64} (nonzero : w ≠ 0) :
    ∃ i < 64, trailingZeros w = i.toUInt64 ∧ w.toNat.testBit i = true := by
  have someBit : ∃ i ∈ List.range 64, w.toNat.testBit i = true := by
    obtain ⟨i, set⟩ := Nat.exists_testBit_of_ne_zero (fun zero => nonzero (UInt64.toNat_inj.mp zero))
    have low : i < 64 := Nat.lt_of_not_le fun high => by simp [testBit_of_le high] at set
    exact ⟨i, List.mem_range.mpr low, set⟩
  cases found : (List.range 64).find? fun i => w.toNat.testBit i with
  | none =>
    obtain ⟨i, member, set⟩ := someBit
    exact absurd set (by simpa using List.find?_eq_none.mp found i member)
  | some i =>
    refine ⟨i, List.mem_range.mp (List.mem_of_find?_eq_some found), ?_, List.find?_some found⟩
    simp [trailingZeros, found]

/-- After the shift by its trailing zeros, a nonzero word keeps its lowest set bit, in
bit 0. -/
theorem shiftRight_trailingZeros_ne_zero {w : UInt64} (nonzero : w ≠ 0) :
    w >>> trailingZeros w ≠ 0 := by
  obtain ⟨i, low, tz, set⟩ := trailingZeros_spec nonzero
  intro zero
  have bit0 := (eq_zero_iff _).mp zero 0
  rw [tz, UInt64.toNat_shiftRight, Nat.testBit_shiftRight] at bit0
  have amount : (i.toUInt64).toNat % 64 = i := by
    simp [Nat.mod_eq_of_lt low]
  rw [amount, Nat.add_zero, set] at bit0
  cases bit0

/-- The loop of `bit_fold` never leaves a nonzero word: the word it shifts stays
nonzero, and nothing clears its low bit. -/
theorem bitFoldLoop_eq_none {A : Type} (f : UInt32 → A → Option A) (fuel : Nat) :
    ∀ (src : UInt64) (p : UInt32) (acc : A), src ≠ 0 → bitFoldLoop f fuel src p acc = none := by
  induction fuel with
  | zero => intro src p acc _; rfl
  | succ fuel ih =>
    intro src p acc nonzero
    simp only [bitFoldLoop, if_neg (shiftRight_trailingZeros_ne_zero nonzero)]
    cases f (p + (trailingZeros src).toUInt32) acc with
    | none => rfl
    | some acc' => exact ih _ _ _ (shiftRight_trailingZeros_ne_zero nonzero)

theorem bitFold_eq_none {A : Type} {w : UInt64} (nonzero : w ≠ 0) (acc : A)
    (f : UInt32 → A → Option A) (fuel : Nat) : bitFold w acc f fuel = none := by
  simp only [bitFold, if_neg nonzero]
  exact bitFoldLoop_eq_none f fuel w 0 acc nonzero

end SignalWord

/-! ## The queue -/

/-- `DIRECT_FETCH`. -/
def directFetch : Nat := 8

/-- A node: the ghost id of its allocation, and its `sig_union`. -/
structure RtNode where
  id : Nat
  sigUnion : UInt64
  deriving DecidableEq, Repr

/-- `Node::sig`: the low `SIG_MAXBIT` (16) bits of `sig_union`. -/
def RtNode.sig (n : RtNode) : Nat := (n.sigUnion.toUInt32 &&& (((1 : UInt32) <<< 16) - 1)).toNat

/-- The node's signal as a `Sig`, which `Sig::check` assumes it is. -/
def RtNode.toSig (n : RtNode) : Sig := ⟨n.sig % sigN, Nat.mod_lt _ (by decide)⟩

/-- `RTQueue` as the source lays it out: the main list from `head` to `tail`, the list
of each signal from `table[sig - 32].0` to `.1`, the access counter, `exist`, and the
id the next allocation gets. -/
structure LinkedRTQueue where
  main : List RtNode
  table : Nat → List RtNode
  access : UInt64
  exist : UInt64
  nextId : Nat

namespace LinkedRTQueue

/-- `RTQueue::new`. -/
def new : LinkedRTQueue := ⟨[], fun _ => [], 0, 0, 0⟩

/-- `RTQueue::alloc_access`: the node's `sig_union`, and the next access id. -/
def allocAccess (access : UInt64) (sig : Nat) : UInt64 × UInt64 :=
  (access ||| sig.toUInt64, access + ((1 : UInt64) <<< 16))

/-- `RTQueue::receive`.  A signal below 32 indexes `table` out of bounds, a panic. -/
def receive (q : LinkedRTQueue) (sig : Sig) : Option LinkedRTQueue :=
  if sig.val < 32 then none
  else
    let node : RtNode := ⟨q.nextId, (allocAccess q.access sig.val).1⟩
    let unit := q.table (sig.val - 32)
    some { main := q.main ++ [node]
           table := Function.update q.table (sig.val - 32) (unit ++ [node])
           access := (allocAccess q.access sig.val).2
           exist := if unit = [] then SignalWord.insertBit q.exist sig.val else q.exist
           nextId := q.nextId + 1 }

/-- `RTQueue::can_fetch`. -/
def canFetch (q : LinkedRTQueue) (mask : UInt64) : Bool := SignalWord.canFetch q.exist mask

/-- `RTQueue::remove_node` of the head of a signal's list: the list's head becomes the
node's `sig_next`, and the node leaves the main list. -/
def removeNode (q : LinkedRTQueue) (sig : Nat) (node : RtNode) : LinkedRTQueue :=
  let rest := (q.table (sig - 32)).tail
  { q with
    main := q.main.erase node
    table := Function.update q.table (sig - 32) rest
    exist := if rest = [] then SignalWord.removeBit q.exist sig else q.exist }

/-- Where the direct scan of `fetch` stops. -/
inductive Scan where
  | found (node : RtNode)
  | ended
  | exhausted

/-- The direct scan of `fetch`: each of up to `n` nodes is checked, and then followed by
`next?`, which returns from `fetch` at the end of the list. -/
def scan (mask : UInt64) : Nat → List RtNode → Scan
  | 0, _ => .exhausted
  | _ + 1, [] => .ended
  | n + 1, node :: rest =>
    if !SignalWord.getBit mask node.sig then .found node
    else
      match rest with
      | [] => .ended
      | _ :: _ => scan mask n rest

/-- The closure of the slow path: the least `sig_union` of the heads of the signals'
lists. -/
def slowPick (q : LinkedRTQueue) (sig : UInt32) (acc : Option UInt64) : Option (Option UInt64) :=
  if sig.toNat < 32 ∨ 64 ≤ sig.toNat then none
  else
    match q.table (sig.toNat - 32) with
    | [] => none
    | head :: _ =>
      some (some (match acc with
        | none => head.sigUnion
        | some acc => min acc head.sigUnion))

/-- `RTQueue::fetch`, with fuel for the loop of `bit_fold`: `none` when it does not
return. -/
def fetch (q : LinkedRTQueue) (mask : UInt64) (fuel : Nat) :
    Option (Option Nat × LinkedRTQueue) :=
  if !q.canFetch mask then some (none, q)
  else
    match q.main with
    | [] => none
    | head :: rest =>
      match scan mask directFetch (head :: rest) with
      | .found node => some (some node.sig, q.removeNode node.sig node)
      | .ended => some (none, q)
      | .exhausted =>
        match SignalWord.bitFold (SignalWord.remove q.exist mask) none (slowPick q) fuel with
        | some (some ans) =>
          let sig := (ans &&& (((1 : UInt64) <<< 16) - 1)).toNat
          if sig < 32 ∨ 64 ≤ sig then none
          else
            match q.table (sig - 32) with
            | node :: _ => some (some sig, q.removeNode sig node)
            | [] => none
        | _ => none

/-- `RTQueue::fork`: receive the signals of the main list, in order, into a new queue. -/
def fork (q : LinkedRTQueue) : Option LinkedRTQueue :=
  q.main.foldlM (fun r node => r.receive node.toSig) new

/-- The abstract queue: the signals of the main list. -/
def toList (q : LinkedRTQueue) : RTQueue := q.main.map RtNode.toSig

/-! ## The direct scan -/

/-- A node the scan finds is the first the mask lets through. -/
theorem scan_found {mask : UInt64} {k : Nat} {l : List RtNode} {node : RtNode}
    (found : scan mask k l = .found node) :
    l.find? (fun n => !SignalWord.getBit mask n.sig) = some node := by
  fun_induction scan mask k l with
  | case3 n first rest free =>
    cases found
    simp [free]
  | case5 n first blocked next rest ih =>
    have taken : SignalWord.getBit mask first.sig = true := by simpa using blocked
    simp only [List.find?_cons, taken, Bool.not_true]
    exact ih found
  | _ => cases found

/-- A scan that runs off the list has seen only blocked nodes. -/
theorem scan_ended {mask : UInt64} {k : Nat} {l : List RtNode} (ended : scan mask k l = .ended) :
    ∀ n ∈ l, SignalWord.getBit mask n.sig = true := by
  fun_induction scan mask k l with
  | case2 => simp
  | case4 n first blocked => simpa using blocked
  | case5 n first blocked next rest ih =>
    intro m member
    rcases List.mem_cons.mp member with rfl | later
    · simpa using blocked
    · exact ih ended m later
  | _ => cases ended

/-- The scan gives up when its first `k` nodes are blocked and there are more. -/
theorem scan_exhausted {mask : UInt64} (k : Nat) (l : List RtNode) (longer : k < l.length)
    (blocked : ∀ n ∈ l.take k, SignalWord.getBit mask n.sig = true) :
    scan mask k l = .exhausted := by
  fun_induction scan mask k l with
  | case1 => rfl
  | case2 => simp at longer
  | case3 n first rest free => simp_all
  | case4 n first blocked' => simp at longer
  | case5 n first blocked' next rest ih =>
    refine ih (by simpa using longer) fun m member => blocked m ?_
    simp only [List.take_succ_cons, List.mem_cons]
    exact .inr member

/-! ## The shape the operations keep -/

/-- Each signal's list is the main list's nodes of that signal, `exist` the signals
present, nodes have realtime signals and distinct ids, and access ids leave the low
16 bits clear. -/
structure Good (q : LinkedRTQueue) : Prop where
  sigs : ∀ n ∈ q.main, 32 ≤ n.sig ∧ n.sig < 64
  units : ∀ i, q.table i = q.main.filter fun n => n.sig = i + 32
  exist : ∀ s, q.exist.toNat.testBit s = q.main.any fun n => n.sig = s
  ids : (q.main.map RtNode.id).Nodup
  fresh : ∀ n ∈ q.main, n.id < q.nextId
  aligned : q.access.toNat % 2 ^ 16 = 0

theorem good_new : new.Good where
  sigs := by simp [new]
  units := by simp [new]
  exist := by simp [new]
  ids := by simp [new]
  fresh := by simp [new]
  aligned := by simp [new]

theorem toSig_val {n : RtNode} (small : n.sig < 64) : n.toSig.val = n.sig :=
  Nat.mod_eq_of_lt small

/-- The mask reads a node's signal as `get_bit` does. -/
theorem toSet_toSig (mask : UInt64) (n : RtNode) :
    SignalWord.toSet mask n.toSig = SignalWord.getBit mask n.sig := by
  rw [SignalWord.getBit_eq]
  rfl

/-- The node `receive` allocates carries its signal: access ids leave the low 16 bits
clear. -/
theorem sig_allocAccess {access : UInt64} (aligned : access.toNat % 2 ^ 16 = 0) {sig : Nat}
    (small : sig < 2 ^ 16) (id : Nat) : RtNode.sig ⟨id, (allocAccess access sig).1⟩ = sig := by
  have mask : (((1 : UInt32) <<< 16) - 1).toNat = 2 ^ 16 - 1 := by decide
  have value : sig.toUInt64.toNat = sig := by
    simp only [Nat.toUInt64_eq, UInt64.toNat_ofNat']
    omega
  simp only [RtNode.sig, allocAccess, UInt32.toNat_and, UInt64.toNat_toUInt32, UInt64.toNat_or,
    mask, Nat.and_two_pow_sub_one_eq_mod, value]
  rw [Nat.mod_mod_of_dvd _ (by norm_num : 2 ^ 16 ∣ 2 ^ 32), Nat.or_mod_two_pow, aligned,
    Nat.zero_or, Nat.mod_eq_of_lt small]

theorem aligned_allocAccess {access : UInt64} (aligned : access.toNat % 2 ^ 16 = 0) (sig : Nat) :
    (allocAccess access sig).2.toNat % 2 ^ 16 = 0 := by
  have step : ((1 : UInt64) <<< 16).toNat = 2 ^ 16 := by decide
  simp only [allocAccess, UInt64.toNat_add, step]
  omega

/-- `receive` of a realtime signal appends it to the queue. -/
theorem receive_spec {q : LinkedRTQueue} (good : q.Good) {sig : Sig} (rt : 32 ≤ sig.val) :
    ∃ q', q.receive sig = some q' ∧ q'.Good ∧ q'.toList = q.toList ++ [sig] := by
  have nodeSig : RtNode.sig ⟨q.nextId, (allocAccess q.access sig.val).1⟩ = sig.val :=
    sig_allocAccess good.aligned (lt_trans sig.isLt (by decide)) q.nextId
  have small : sig.val < 64 := sig.isLt
  refine ⟨_, if_neg (Nat.not_lt.mpr rt), ⟨?sigs, ?units, ?exist, ?ids, ?fresh, ?aligned⟩, ?list⟩
  case sigs =>
    intro n member
    rcases List.mem_append.mp member with old | new
    · exact good.sigs n old
    · rw [List.mem_singleton.mp new, nodeSig]
      exact ⟨rt, small⟩
  case units =>
    intro i
    simp only [List.filter_append]
    by_cases same : i = sig.val - 32
    · subst same
      rw [Function.update_self, good.units]
      simp [nodeSig, Nat.sub_add_cancel rt]
    · rw [Function.update_of_ne same, good.units]
      have other : sig.val ≠ i + 32 := by omega
      simp [nodeSig, other]
  case exist =>
    intro s
    simp only [List.any_append, List.any_cons, List.any_nil, Bool.or_false, nodeSig]
    split_ifs with empty
    · rw [SignalWord.testBit_insertBit, good.exist, Nat.mod_eq_of_lt small]
    · -- the signal already has a list, so it is present
      have present : (q.main.any fun n => n.sig = sig.val) = true := by
        obtain ⟨n, member⟩ := List.exists_mem_of_ne_nil _ empty
        rw [good.units, List.mem_filter] at member
        exact List.any_eq_true.mpr ⟨n, member.1, by simpa [Nat.sub_add_cancel rt] using member.2⟩
      rw [good.exist]
      by_cases same : sig.val = s
      · subst same
        simp [present]
      · simp [same]
  case ids =>
    have freshId : ∀ n ∈ q.main, ¬n.id = q.nextId := fun n member same =>
      absurd (good.fresh n member) (by omega)
    simpa [List.nodup_append] using ⟨good.ids, freshId⟩
  case fresh =>
    intro n member
    rcases List.mem_append.mp member with old | new
    · exact Nat.lt_succ_of_lt (good.fresh n old)
    · rw [List.mem_singleton.mp new]
      exact Nat.lt_succ_self _
  case aligned => exact aligned_allocAccess good.aligned sig.val
  case list =>
    simp only [toList, List.map_append, List.map_singleton]
    congr 2
    exact Fin.ext (by rw [toSig_val (by rw [nodeSig]; exact small), nodeSig])

/-- What `can_fetch` sees in `exist` is a queued node the mask lets through. -/
theorem Good.exists_free {q : LinkedRTQueue} (good : q.Good) {mask : UInt64}
    (can : q.canFetch mask = true) : ∃ n ∈ q.main, SignalWord.getBit mask n.sig = false := by
  obtain ⟨i, present, free⟩ := (SignalWord.canFetch_iff q.exist mask).mp can
  rw [good.exist, List.any_eq_true] at present
  obtain ⟨n, member, same⟩ := present
  refine ⟨n, member, ?_⟩
  rw [SignalWord.getBit_eq, Nat.mod_eq_of_lt (good.sigs n member).2, of_decide_eq_true same]
  exact free

theorem Good.canFetch_of_free {q : LinkedRTQueue} (good : q.Good) {mask : UInt64} {n : RtNode}
    (member : n ∈ q.main) (free : SignalWord.getBit mask n.sig = false) :
    q.canFetch mask = true := by
  refine (SignalWord.canFetch_iff q.exist mask).mpr ⟨n.sig, ?_, ?_⟩
  · rw [good.exist, List.any_eq_true]
    exact ⟨n, member, decide_eq_true rfl⟩
  · rwa [SignalWord.getBit_eq, Nat.mod_eq_of_lt (good.sigs n member).2] at free

/-- `can_fetch` asks whether the queue holds a signal the mask lets through. -/
theorem canFetch_eq {q : LinkedRTQueue} (good : q.Good) (mask : UInt64) :
    q.canFetch mask = q.toList.canFetch (SignalWord.toSet mask) := by
  rw [Bool.eq_iff_iff]
  simp only [toList, RTQueue.canFetch, List.any_map, List.any_eq_true, Function.comp_apply,
    toSet_toSig, Bool.not_eq_true']
  constructor
  · exact good.exists_free
  · rintro ⟨n, member, free⟩
    exact good.canFetch_of_free member free

/-- The set the slow path folds over is nonempty when `can_fetch` holds. -/
theorem remove_ne_zero_of_canFetch {q : LinkedRTQueue} {mask : UInt64}
    (can : q.canFetch mask = true) : SignalWord.remove q.exist mask ≠ 0 := by
  simpa [canFetch, SignalWord.canFetch, SignalWord.remove] using can

/-- Removing the first node of its signal keeps the shape, and takes the node out of
the main list. -/
theorem removeNode_spec {q : LinkedRTQueue} (good : q.Good) {before after : List RtNode}
    {node : RtNode} (split : q.main = before ++ node :: after)
    (first : ∀ a ∈ before, a.sig ≠ node.sig) :
    (q.removeNode node.sig node).Good ∧ (q.removeNode node.sig node).main = before ++ after := by
  have rt := good.sigs node (by simp [split])
  have notBefore : node ∉ before := fun member => first node member rfl
  have erased : q.main.erase node = before ++ after := by
    rw [split, List.erase_append_right _ notBefore, List.erase_cons_head]
  -- the node heads its signal's list
  have noneBefore : (before.filter fun n => n.sig = node.sig) = [] :=
    List.filter_eq_nil_iff.mpr fun a member => by simpa using first a member
  have unit : q.table (node.sig - 32) = node :: after.filter fun n => n.sig = node.sig := by
    rw [good.units, Nat.sub_add_cancel rt.1, split, List.filter_append, noneBefore]
    simp
  have sublist : (before ++ after).Sublist q.main := by
    rw [split]
    exact List.Sublist.append_left (List.sublist_cons_self node after) before
  refine ⟨⟨?sigs, ?units, ?exist, ?ids, ?fresh, good.aligned⟩, erased⟩
  case sigs =>
    intro n member
    rw [show (q.removeNode node.sig node).main = before ++ after from erased] at member
    exact good.sigs n (sublist.subset member)
  case units =>
    intro i
    simp only [removeNode, erased]
    by_cases same : i = node.sig - 32
    · subst same
      rw [Function.update_self, unit, List.tail_cons, Nat.sub_add_cancel rt.1, List.filter_append,
        noneBefore, List.nil_append]
    · rw [Function.update_of_ne same, good.units, split, List.filter_append, List.filter_append,
        List.filter_cons_of_neg (by simp; omega)]
  case exist =>
    intro s
    simp only [removeNode, erased, unit, List.tail_cons]
    have whole : (q.main.any fun n => n.sig = s) =
        ((before.any fun n => n.sig = s) || decide (node.sig = s) || after.any fun n => n.sig = s) := by
      simp [split, Bool.or_assoc]
    split_ifs with gone
    · -- the last node of its signal: the bit is cleared
      rw [SignalWord.testBit_removeBit, good.exist, whole, Nat.mod_eq_of_lt rt.2, List.any_append]
      by_cases same : node.sig = s
      · subst same
        have noneBefore : (before.any fun n => n.sig = node.sig) = false := by
          simpa using fun a member => first a member
        have noneAfter : (after.any fun n => n.sig = node.sig) = false := by
          simpa [List.filter_eq_nil_iff] using gone
        simp [noneBefore, noneAfter]
      · simp [same]
    · -- another node of the signal stays, and so does the bit
      rw [good.exist, whole, List.any_append]
      by_cases same : node.sig = s
      · subst same
        have someAfter : (after.any fun n => n.sig = node.sig) = true := by
          obtain ⟨n, member⟩ := List.exists_mem_of_ne_nil _ gone
          exact List.any_eq_true.mpr ⟨n, (List.mem_filter.mp member).1, (List.mem_filter.mp member).2⟩
        simp [someAfter]
      · simp [same]
  case ids =>
    simp only [removeNode, erased]
    exact good.ids.sublist (sublist.map RtNode.id)
  case fresh =>
    intro n member
    rw [show (q.removeNode node.sig node).main = before ++ after from erased] at member
    exact good.fresh n (sublist.subset member)

/-! ## `fetch` -/

/-- Whenever `fetch` returns, it returns the first queued signal the mask lets through
and removes exactly that one, as the FIFO queue does. -/
theorem fetch_refines {q q' : LinkedRTQueue} (good : q.Good) {mask : UInt64} {fuel : Nat}
    {r : Option Nat} (returned : q.fetch mask fuel = some (r, q')) :
    q'.Good ∧ r = (q.toList.fetch (SignalWord.toSet mask)).1.map Fin.val ∧
      q'.toList = (q.toList.fetch (SignalWord.toSet mask)).2 := by
  have pick : (fun s => !SignalWord.toSet mask s) ∘ RtNode.toSig =
      fun n => !SignalWord.getBit mask n.sig := by
    funext n
    simp only [Function.comp_apply, toSet_toSig]
  have onList : q.toList.find? (fun s => !SignalWord.toSet mask s) =
      (q.main.find? fun n => !SignalWord.getBit mask n.sig).map RtNode.toSig := by
    rw [toList, List.find?_map, pick]
  unfold fetch at returned
  split_ifs at returned with nothing
  · -- no queued signal is let through
    cases returned
    have none : q.toList.find? (fun s => !SignalWord.toSet mask s) = none := by
      have cannot : q.canFetch mask = false := by simpa using nothing
      have can := canFetch_eq good mask
      rw [cannot, RTQueue.canFetch] at can
      have blocked := List.any_eq_false.mp can.symm
      exact List.find?_eq_none.mpr fun s member => by simpa using blocked s member
    simp [RTQueue.fetch, none, good]
  · split at returned
    · cases returned
    · rename_i head rest headRest
      split at returned
      · rename_i node found
        cases returned
        have firstFree : q.main.find? (fun n => !SignalWord.getBit mask n.sig) = some node := by
          rw [headRest]
          exact scan_found found
        obtain ⟨free, before, after, split, skipped⟩ := List.find?_eq_some_iff_append.mp firstFree
        have first : ∀ a ∈ before, a.sig ≠ node.sig := fun a member same => by
          have taken := skipped a member
          rw [same] at taken
          simp_all
        obtain ⟨good', removed⟩ := removeNode_spec good split first
        have foundSig : q.toList.find? (fun s => !SignalWord.toSet mask s) = some node.toSig := by
          rw [onList, firstFree, Option.map_some]
        have notBefore : node.toSig ∉ before.map RtNode.toSig := fun member => by
          obtain ⟨a, inBefore, same⟩ := List.mem_map.mp member
          have sameBit := congrArg (SignalWord.toSet mask) same
          rw [toSet_toSig, toSet_toSig] at sameBit
          have taken := skipped a inBefore
          simp_all
        have abstractFetch : q.toList.fetch (SignalWord.toSet mask) =
            (some node.toSig, q.toList.erase node.toSig) := by
          simp only [RTQueue.fetch, foundSig]
        refine ⟨good', ?_, ?_⟩
        · rw [abstractFetch, Option.map_some, toSig_val (good.sigs node (by simp [split])).2]
        · rw [abstractFetch]
          simp only [toList, removed, split, List.map_append, List.map_cons]
          rw [List.erase_append_right _ notBefore, List.erase_cons_head]
      · -- the queue holds a signal the mask lets through, so the scan cannot run off it
        rename_i ended
        obtain ⟨n, member, free⟩ := good.exists_free (by simpa using nothing)
        have taken := scan_ended ended n (headRest ▸ member)
        rw [free] at taken
        cases taken
      · -- the slow path does not return
        rw [SignalWord.bitFold_eq_none (remove_ne_zero_of_canFetch (by simpa using nothing))]
          at returned
        cases returned

/-- `fetch` does not return once the first `DIRECT_FETCH` queued signals are blocked and
some later one is not. -/
theorem fetch_eq_none_of_blocked {q : LinkedRTQueue} {mask : UInt64}
    (can : q.canFetch mask = true) (longer : directFetch < q.main.length)
    (blocked : ∀ n ∈ q.main.take directFetch, SignalWord.getBit mask n.sig = true) (fuel : Nat) :
    q.fetch mask fuel = none := by
  have exhausted := scan_exhausted directFetch q.main longer blocked
  have nonzero := remove_ne_zero_of_canFetch can
  unfold fetch
  rw [if_neg (by simp [can])]
  cases main : q.main with
  | nil => simp [main] at longer
  | cons head rest =>
    rw [main] at exhausted
    simp only [exhausted, SignalWord.bitFold_eq_none nonzero]

/-! ## `fork` -/

theorem foldlM_receive (ns : List RtNode) :
    ∀ r : LinkedRTQueue, r.Good → (∀ n ∈ ns, 32 ≤ n.sig ∧ n.sig < 64) →
      ∃ r', ns.foldlM (fun r node => r.receive node.toSig) r = some r' ∧ r'.Good ∧
        r'.toList = r.toList ++ ns.map RtNode.toSig := by
  induction ns with
  | nil =>
    intro r good _
    exact ⟨r, rfl, good, by simp⟩
  | cons n ns ih =>
    intro r good rt
    have first := rt n List.mem_cons_self
    obtain ⟨r1, received, good1, list1⟩ :=
      @receive_spec r good n.toSig (by rw [toSig_val first.2]; exact first.1)
    obtain ⟨r2, folded, good2, list2⟩ :=
      ih r1 good1 fun m member => rt m (List.mem_cons_of_mem n member)
    refine ⟨r2, ?_, good2, ?_⟩
    · rw [List.foldlM_cons, received]
      exact folded
    · rw [list2, list1, List.map_cons, List.append_assoc, List.singleton_append]

/-- `fork` gives a queue of the same signals in the same order. -/
theorem fork_spec {q : LinkedRTQueue} (good : q.Good) :
    ∃ r, q.fork = some r ∧ r.Good ∧ r.toList = q.toList := by
  obtain ⟨r, folded, goodR, list⟩ := foldlM_receive q.main new good_new good.sigs
  exact ⟨r, folded, goodR, by simpa [toList, new] using list⟩

end LinkedRTQueue

/-! ## Runs -/

/-- The calls on a queue. -/
inductive RtCall where
  | receive (sig : Sig)
  | fetch (mask : UInt64)

namespace RtCall

/-- A call, with fuel for `fetch`: `none` when it panics or does not return. -/
def run (fuel : Nat) : RtCall → LinkedRTQueue → Option LinkedRTQueue
  | .receive sig, q => q.receive sig
  | .fetch mask, q => (q.fetch mask fuel).map Prod.snd

/-- The call on the FIFO queue. -/
def onList : RtCall → RTQueue → RTQueue
  | .receive sig, l => l ++ [sig]
  | .fetch mask, l => (l.fetch (SignalWord.toSet mask)).2

/-- Every call that returns keeps the shape and acts on the signals as on the FIFO queue. -/
theorem run_refines {q q' : LinkedRTQueue} (good : q.Good) (c : RtCall) {fuel : Nat}
    (ran : c.run fuel q = some q') : q'.Good ∧ q'.toList = c.onList q.toList := by
  cases c with
  | receive sig =>
    by_cases rt : 32 ≤ sig.val
    · obtain ⟨r, received, goodR, list⟩ := LinkedRTQueue.receive_spec good rt
      simp only [run, received, Option.some.injEq] at ran
      subst ran
      exact ⟨goodR, list⟩
    · simp [run, LinkedRTQueue.receive, Nat.lt_of_not_le rt] at ran
  | fetch mask =>
    simp only [run, Option.map_eq_some_iff] at ran
    obtain ⟨⟨r, q''⟩, returned, rfl⟩ := ran
    obtain ⟨good', -, list⟩ := LinkedRTQueue.fetch_refines good returned
    exact ⟨good', list⟩

end RtCall

/-- One call that returns. -/
def RtStep (q q' : LinkedRTQueue) : Prop := ∃ (c : RtCall) (fuel : Nat), c.run fuel q = some q'

theorem LinkedRTQueue.Good.of_reachable {q : LinkedRTQueue}
    (reach : Relation.ReflTransGen RtStep LinkedRTQueue.new q) : q.Good := by
  induction reach with
  | refl => exact LinkedRTQueue.good_new
  | tail _ step ih =>
    obtain ⟨c, fuel, ran⟩ := step
    exact (c.run_refines ih ran).1

/-- Any list of realtime signals is the queue of some run. -/
theorem reachable_of_receives (sigs : List Sig) :
    ∀ q₀ : LinkedRTQueue, Relation.ReflTransGen RtStep LinkedRTQueue.new q₀ →
      (∀ s ∈ sigs, 32 ≤ s.val) →
      ∃ q, Relation.ReflTransGen RtStep LinkedRTQueue.new q ∧ q.toList = q₀.toList ++ sigs := by
  induction sigs with
  | nil =>
    intro q₀ reach _
    exact ⟨q₀, reach, by simp⟩
  | cons s sigs ih =>
    intro q₀ reach rt
    obtain ⟨q₁, received, -, list₁⟩ :=
      LinkedRTQueue.receive_spec (LinkedRTQueue.Good.of_reachable reach) (rt s List.mem_cons_self)
    have step : RtStep q₀ q₁ := ⟨.receive s, 0, received⟩
    obtain ⟨q, reachQ, list⟩ :=
      ih q₁ (reach.tail step) fun t member => rt t (List.mem_cons_of_mem s member)
    exact ⟨q, reachQ, by rw [list, list₁, List.append_assoc, List.singleton_append]⟩

open LinkedRTQueue in
/-- `fetch` hangs once its first `DIRECT_FETCH` queued signals are blocked and a later
one is not.  Eight `SIGRTMIN` queued before one `SIGRTMIN+1`, with `SIGRTMIN` blocked:
the FIFO queue hands out `SIGRTMIN+1`, and `fetch` never returns. -/
theorem rtQueue_fetch_hangs :
    (∀ (q : LinkedRTQueue) (mask : UInt64), q.canFetch mask = true →
      directFetch < q.main.length →
      (∀ n ∈ q.main.take directFetch, SignalWord.getBit mask n.sig = true) →
      ∀ fuel, q.fetch mask fuel = none) ∧
    ∃ q : LinkedRTQueue, Relation.ReflTransGen RtStep new q ∧
      q.toList = List.replicate 8 ⟨32, by decide⟩ ++ [⟨33, by decide⟩] ∧
      (q.toList.fetch (SignalWord.toSet (SignalWord.bit 32))).1 = some ⟨33, by decide⟩ ∧
      ∀ fuel, q.fetch (SignalWord.bit 32) fuel = none := by
  refine ⟨fun q mask can longer blocked fuel => fetch_eq_none_of_blocked can longer blocked fuel, ?_⟩
  have rt : ∀ s ∈ List.replicate 8 (⟨32, by decide⟩ : Sig) ++ [⟨33, by decide⟩], 32 ≤ s.val := by
    decide
  obtain ⟨q, reach, list⟩ := reachable_of_receives _ new .refl rt
  have good := Good.of_reachable reach
  simp only [toList, new, List.map_nil, List.nil_append] at list
  have sigs : q.toList = List.replicate 8 ⟨32, by decide⟩ ++ [⟨33, by decide⟩] := list
  refine ⟨q, reach, sigs, by rw [sigs]; decide,
    fun fuel => fetch_eq_none_of_blocked ?can ?longer ?blocked fuel⟩
  case can =>
    rw [canFetch_eq good, sigs]
    decide
  case longer =>
    have lengths := congrArg List.length sigs
    simp only [toList, List.length_map] at lengths
    simp [directFetch, lengths]
  case blocked =>
    intro n member
    -- the first eight nodes carry `SIGRTMIN`, which the mask blocks
    have inTake : n.toSig ∈ q.toList.take directFetch := by
      rw [toList, ← List.map_take]
      exact List.mem_map_of_mem member
    rw [sigs] at inTake
    have rtmin : n.toSig = ⟨32, by decide⟩ := by
      simpa [directFetch] using inTake
    have sig32 : n.sig = 32 := by
      rw [← toSig_val (good.sigs n (List.mem_of_mem_take member)).2, rtmin]
    rw [sig32, SignalWord.getBit_eq, SignalWord.testBit_bit]
    decide

end Signal

end FtlOs
