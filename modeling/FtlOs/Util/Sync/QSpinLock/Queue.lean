import FtlOs.Util.Sync.QSpinLock.Defs

/-!
# The MCS queue of the queued spin lock

The CPUs past their swap of `tail` form a queue `Q`, in the order of their swaps
(`State.Queue`).  The first of `Q` leads it: its flag was set by its predecessor, or it
found no tail.  Every later CPU has a clear flag and is linked behind the one before it, or
is about to link itself there.  The last CPU's node has no `next`, and `tail` names the last
CPU, or is `0` for an empty queue.  A head holds in its locals no successor other than the
one its node names, and between `node.init()` and the swap a CPU's node is empty.

Every step keeps such a queue: the swap of `tail` appends a CPU, a hand-over removes the
first, and the head's `compare_exchange` empties a queue it was alone in.
-/

namespace FtlOs

namespace QSpinLock

namespace Phase

/-- A CPU past its swap of `tail`, in the queue. -/
def queued : Phase → Bool
  | link _ | waitNode | readNext | headWait _ | headCas _ _ | headLock _ | waitNext | passOn _ =>
    true
  | _ => false

/-- The phases of the first CPU of the queue, given its node: a waiter whose flag is set, or
any phase after the wait. -/
def leads (ph : Phase) (node : QNode) : Bool :=
  match ph with
  | waitNode => node.locked
  | readNext | headWait _ | headCas _ _ | headLock _ | waitNext | passOn _ => true
  | _ => false

/-- Between `node.init()` and the swap of `tail`. -/
def fresh : Phase → Bool
  | tryLoad | tryCas | swapTail => true
  | _ => false

/-- The successor a head holds in its locals. -/
def localNext : Phase → Option Cpu
  | headWait next | headCas _ next | headLock next => next
  | passOn c => some c
  | _ => none

/-- A linking CPU. -/
def linking : Phase → Bool
  | link _ => true
  | _ => false

/-- Two phases in the same place in the queue, for a CPU with node `node`: an instruction from
`old` to `ph` that changes no node and no tail keeps the queue (`State.Queue.quiet`). -/
structure SameQueue (old ph : Phase) (node : QNode) : Prop where
  queued : ph.queued = old.queued
  leads : ph.leads node = old.leads node
  notLinking : ph.linking = false ∧ old.linking = false
  localNext : ∀ c, ph.localNext = some c → old.localNext = some c ∨ node.next = some c
  fresh : ph.fresh = true → old.fresh = true

theorem queued_of_leads {ph : Phase} {node : QNode} (leading : ph.leads node = true) :
    ph.queued = true := by
  cases ph <;> simp_all [leads, queued]

theorem leads_of_localNext {ph : Phase} {c : Cpu} (node : QNode)
    (holding : ph.localNext = some c) : ph.leads node = true := by
  cases ph <;> simp_all [leads, localNext]

theorem not_fresh_of_queued {ph : Phase} (queuedPh : ph.queued = true) : ph.fresh = false := by
  cases ph <;> simp_all [queued, fresh]

/-- Of a node, only its flag decides whether a phase leads. -/
theorem leads_congr (ph : Phase) {a b : QNode} (same : a.locked = b.locked) :
    ph.leads a = ph.leads b := by
  cases ph <;> simp [leads, same]

/-- A CPU in the queue that does not lead it links, or waits with a clear flag. -/
theorem link_or_wait {ph : Phase} {node : QNode} (queuedPh : ph.queued = true)
    (follows : ph.leads node = false) : (∃ p, ph = link p) ∨ (ph = waitNode ∧ node.locked = false) := by
  cases ph <;> simp_all [queued, leads]

end Phase

/-! ## Tails -/

theorem encodeTail_ne_zero (c : Cpu) : encodeTail c ≠ 0 := by
  simp [encodeTail, maxNest]

theorem encodeTail_inj {c d : Cpu} (same : encodeTail c = encodeTail d) : c = d := by
  simp only [encodeTail, maxNest, add_zero, mul_eq_mul_right_iff, Nat.add_right_cancel_iff,
    OfNat.ofNat_ne_zero, or_false] at same
  exact Fin.ext same

theorem decodeTail_encodeTail (c : Cpu) : decodeTail (encodeTail c) = c := by
  apply Fin.ext
  have below := c.isLt
  rw [decodeTail, Fin.val_ofNat]
  simp only [encodeTail, maxNest, maxCpu] at below ⊢
  omega

/-! ## Positions in a list without repeats -/

theorem eq_of_getElem?_eq {Q : List Cpu} (nodup : Q.Nodup) {k l : Nat} {i : Cpu}
    (atK : Q[k]? = some i) (atL : Q[l]? = some i) : k = l := by
  have inside : k < Q.length := (List.getElem?_eq_some_iff.mp atK).1
  exact (List.getElem?_inj inside nodup).mp (atK.trans atL.symm)

theorem getElem?_of_getLast? {Q : List Cpu} {i : Cpu} (last : Q.getLast? = some i) :
    Q[Q.length - 1]? = some i := by
  rwa [List.getLast?_eq_getElem?] at last

/-- A position of `Q ++ [i]` is one of `Q`, or the new last one. -/
theorem getElem?_concat_cases {Q : List Cpu} {i j : Cpu} {k : Nat}
    (found : (Q ++ [i])[k]? = some j) : Q[k]? = some j ∨ k = Q.length ∧ j = i := by
  rw [List.getElem?_append] at found
  split_ifs at found with before
  · exact .inl found
  · have inside := (List.getElem?_eq_some_iff.mp found).1
    simp only [List.length_singleton] at inside
    refine .inr ⟨by omega, ?_⟩
    simpa [show k - Q.length = 0 by omega, eq_comm] using found

/-! ## The queue -/

/-- The CPUs past the swap of `tail` form the queue `Q`, in the order of their swaps. -/
structure State.Queue (s : State) (Q : List Cpu) : Prop where
  nodup : Q.Nodup
  queued : ∀ i, i ∈ Q ↔ (s.phase i).queued
  leads : ∀ k i, Q[k]? = some i → (k = 0 ↔ (s.phase i).leads (s.nodes i))
  waiting : ∀ k i, Q[k + 1]? = some i → (s.nodes i).locked = false
  behind : ∀ k i j, Q[k]? = some i → Q[k + 1]? = some j →
    (s.nodes i).next = some j ∧ (s.phase j).linking = false ∨
      (s.nodes i).next = none ∧ s.phase j = .link i
  last : ∀ i, Q.getLast? = some i → (s.nodes i).next = none
  tail : s.word.tail = (Q.getLast?.map encodeTail).getD 0
  localNext : ∀ i c, (s.phase i).localNext = some c → (s.nodes i).next = some c
  fresh : ∀ i, (s.phase i).fresh → s.nodes i = .empty

theorem queue_init : State.init.Queue [] where
  nodup := List.nodup_nil
  queued _ := by simp [State.init, Phase.queued]
  leads _ _ found := by simp at found
  waiting _ _ found := by simp at found
  behind _ _ _ found := by simp at found
  last _ found := by simp at found
  tail := rfl
  localNext _ _ holding := by simp [State.init, Phase.localNext] at holding
  fresh _ isFresh := by simp [State.init, Phase.fresh] at isFresh

section Queue

variable {s : State} {Q : List Cpu}

/-- A CPU that leads the queue is its first. -/
theorem State.Queue.first (queue : s.Queue Q) {i : Cpu}
    (leading : (s.phase i).leads (s.nodes i) = true) : Q[0]? = some i := by
  obtain ⟨k, found⟩ := List.mem_iff_getElem?.mp
    ((queue.queued i).mpr (Phase.queued_of_leads leading))
  have zero := (queue.leads k i found).mpr leading
  subst zero
  exact found

/-- The tail is `0` exactly for an empty queue. -/
theorem State.Queue.tail_eq_zero (queue : s.Queue Q) : s.word.tail = 0 ↔ Q = [] := by
  rw [queue.tail]
  cases last : Q.getLast? with
  | none => simpa using last
  | some i =>
    simp only [Option.map_some, Option.getD_some, encodeTail_ne_zero, false_iff]
    rintro rfl
    simp at last

/-- A CPU whose `tail` the word holds is the last of the queue. -/
theorem State.Queue.getLast?_of_tail (queue : s.Queue Q) {i : Cpu}
    (mine : s.word.tail = encodeTail i) : Q.getLast? = some i := by
  rw [queue.tail] at mine
  cases last : Q.getLast? with
  | none =>
    rw [last] at mine
    exact absurd mine.symm (encodeTail_ne_zero i)
  | some j =>
    rw [last] at mine
    exact congrArg some (encodeTail_inj mine)

/-- The successor a CPU's node names is the next of the queue. -/
theorem State.Queue.next_of_node (queue : s.Queue Q) {k : Nat} {i c : Cpu}
    (atK : Q[k]? = some i) (named : (s.nodes i).next = some c) : Q[k + 1]? = some c := by
  cases after : Q[k + 1]? with
  | none =>
    -- `i` is the last of the queue, whose node names no successor
    have inside := (List.getElem?_eq_some_iff.mp atK).1
    have atEnd : k + 1 = Q.length := by
      have := List.getElem?_eq_none_iff.mp after
      omega
    have last : Q.getLast? = some i := by
      rw [List.getLast?_eq_getElem?, show Q.length - 1 = k by omega, atK]
    rw [queue.last i last] at named
    cases named
  | some j =>
    rcases queue.behind k i j atK after with ⟨linked, -⟩ | ⟨unlinked, -⟩
    · rw [named] at linked
      exact congrArg some (Option.some.inj linked).symm
    · rw [named] at unlinked
      cases unlinked

/-- An instruction that changes no node, no tail and no CPU's place in the queue keeps the
queue. -/
theorem State.Queue.quiet (queue : s.Queue Q) {i : Cpu} {old ph : Phase} {w : QVal}
    (was : s.phase i = old) (same : old.SameQueue ph (s.nodes i))
    (sameTail : w.tail = s.word.tail) :
    (⟨w, s.nodes, Function.update s.phase i ph⟩ : State).Queue Q := by
  subst was
  refine ⟨queue.nodup, fun j => ?_, fun k j found => ?_, queue.waiting,
    fun k j l atK after => ?_, queue.last, by rw [sameTail, queue.tail], fun j c holding => ?_,
    fun j isFresh => ?_⟩
  · by_cases here : j = i
    · subst here
      simpa [same.queued] using queue.queued j
    · simpa [Function.update_of_ne here] using queue.queued j
  · by_cases here : j = i
    · subst here
      simpa [same.leads] using queue.leads k j found
    · simpa [Function.update_of_ne here] using queue.leads k j found
  · -- only a linking CPU's phase appears here, and the step neither starts nor ends one
    have kept := queue.behind k j l atK after
    by_cases here : l = i
    · subst here
      simp only [Function.update_self]
      rcases kept with ⟨linked, _⟩ | ⟨_, linking⟩
      · exact .inl ⟨linked, same.notLinking.1⟩
      · have notLinking := same.notLinking.2
        simp [linking, Phase.linking] at notLinking
    · simpa [Function.update_of_ne here] using kept
  · by_cases here : j = i
    · subst here
      rcases same.localNext c (by simpa using holding) with kept | named
      · exact queue.localNext j c kept
      · exact named
    · exact queue.localNext j c (by simpa [Function.update_of_ne here] using holding)
  · by_cases here : j = i
    · subst here
      exact queue.fresh j (same.fresh (by simpa using isFresh))
    · exact queue.fresh j (by simpa [Function.update_of_ne here] using isFresh)

/-- A CPU outside the queue is none of its members. -/
theorem State.Queue.ne_of_mem (queue : s.Queue Q) {i j : Cpu} (outside : (s.phase i).queued = false)
    (member : j ∈ Q) : j ≠ i := by
  rintro rfl
  rw [queue.queued j, outside] at member
  cases member

/-- `node.init()` empties the node of a CPU outside the queue. -/
theorem State.Queue.initNode (queue : s.Queue Q) {i : Cpu} (init : s.phase i = .initNode) :
    (⟨s.word, Function.update s.nodes i .empty, Function.update s.phase i .tryLoad⟩ :
      State).Queue Q := by
  have outside : (s.phase i).queued = false := by rw [init]; rfl
  have other : ∀ {k j}, Q[k]? = some j → j ≠ i := fun found =>
    queue.ne_of_mem outside (List.mem_of_getElem? found)
  refine ⟨queue.nodup, fun j => ?_, fun k j found => ?_, fun k j found => ?_,
    fun k j l atK after => ?_, fun j last => ?_, queue.tail, fun j c holding => ?_,
    fun j isFresh => ?_⟩
  · by_cases here : j = i
    · subst here
      simpa [init, Phase.queued] using queue.queued j
    · simpa [Function.update_of_ne here] using queue.queued j
  · simpa [Function.update_of_ne (other found)] using queue.leads k j found
  · simpa [Function.update_of_ne (other found)] using queue.waiting k j found
  · simpa [Function.update_of_ne (other atK), Function.update_of_ne (other after)] using
      queue.behind k j l atK after
  · have atEnd := getElem?_of_getLast? last
    simpa [Function.update_of_ne (other atEnd)] using queue.last j last
  · by_cases here : j = i
    · subst here
      simp [Phase.localNext] at holding
    · simpa [Function.update_of_ne here] using queue.localNext j c
        (by simpa [Function.update_of_ne here] using holding)
  · by_cases here : j = i
    · subst here
      simp
    · simpa [Function.update_of_ne here] using queue.fresh j
        (by simpa [Function.update_of_ne here] using isFresh)

/-- The swap of `tail` appends its CPU to the queue: behind the old tail, which it then
links to, or at the head of an empty queue. -/
theorem State.Queue.swapTail (queue : s.Queue Q) {i : Cpu} (swapping : s.phase i = .swapTail) :
    (⟨{ s.word with tail := encodeTail i }, s.nodes, Function.update s.phase i
      (if s.word.tail ≠ 0 then .link (decodeTail s.word.tail) else .headWait none)⟩ :
        State).Queue (Q ++ [i]) := by
  have outside : (s.phase i).queued = false := by rw [swapping]; rfl
  have other : ∀ {k j}, Q[k]? = some j → j ≠ i := fun found =>
    queue.ne_of_mem outside (List.mem_of_getElem? found)
  have empty : s.nodes i = .empty := queue.fresh i (by rw [swapping]; rfl)
  have absent : i ∉ Q := fun member => queue.ne_of_mem outside member rfl
  -- the new phase of `i`: it links behind the old last CPU, or leads an empty queue
  set ph : Phase := if s.word.tail ≠ 0 then .link (decodeTail s.word.tail) else .headWait none
    with phDef
  have phQueued : ph.queued = true := by rw [phDef]; split <;> rfl
  have phLocal : ph.localNext = none := by rw [phDef]; split <;> rfl
  have phFresh : ph.fresh = false := by rw [phDef]; split <;> rfl
  have phLeads : ph.leads .empty = true ↔ Q = [] := by
    by_cases emptyQ : Q = []
    · subst emptyQ
      simp [ph, queue.tail, Phase.leads]
    · have busy : s.word.tail ≠ 0 := fun zero => emptyQ ((queue.tail_eq_zero).mp zero)
      simp [ph, busy, Phase.leads, emptyQ]
  refine ⟨queue.nodup.append (List.nodup_singleton i) (by simpa using absent), fun j => ?_,
    fun k j found => ?_, fun k j found => ?_, fun k j l atK after => ?_, fun j last => ?_, ?_,
    fun j c holding => ?_, fun j isFresh => ?_⟩
  · by_cases here : j = i
    · subst here
      simp [phQueued]
    · simpa [Function.update_of_ne here, here] using queue.queued j
  · rcases getElem?_concat_cases found with old | ⟨rfl, rfl⟩
    · simpa [Function.update_of_ne (other old)] using queue.leads k j old
    · simpa [empty, List.length_eq_zero_iff] using phLeads.symm
  · rcases getElem?_concat_cases found with old | ⟨-, rfl⟩
    · exact queue.waiting k j old
    · simp [empty, QNode.empty]
  · have before : Q[k]? = some j := by
      rcases getElem?_concat_cases atK with old | ⟨place, -⟩
      · exact old
      · -- `k + 1` is a position of `Q ++ [i]`, so `k` is one of `Q`
        have inside := (List.getElem?_eq_some_iff.mp after).1
        simp only [List.length_append, List.length_singleton] at inside
        omega
    rcases getElem?_concat_cases after with old | ⟨place, rfl⟩
    · -- a pair of the old queue
      simpa [Function.update_of_ne (other old)] using queue.behind k j l before old
    · -- the old last CPU and `i`, which links to it
      have last : Q.getLast? = some j := by
        rw [List.getLast?_eq_getElem?, show Q.length - 1 = k by omega, before]
      refine .inr ⟨queue.last j last, ?_⟩
      simp [ph, queue.tail, last, decodeTail_encodeTail, encodeTail_ne_zero]
  · have isI : j = i := by
      simpa [List.getLast?_append] using last.symm
    subst isI
    exact congrArg QNode.next empty
  · simp [List.getLast?_append]
  · by_cases here : j = i
    · subst here
      simp [phLocal] at holding
    · simpa [Function.update_of_ne here] using queue.localNext j c
        (by simpa [Function.update_of_ne here] using holding)
  · by_cases here : j = i
    · subst here
      simp [phFresh] at isFresh
    · exact queue.fresh j (by simpa [Function.update_of_ne here] using isFresh)

/-- A linking CPU stands right behind the CPU it links to, whose node names no successor
yet. -/
theorem State.Queue.behind_of_link (queue : s.Queue Q) {i p : Cpu}
    (linking : s.phase i = .link p) :
    ∃ k, Q[k]? = some p ∧ Q[k + 1]? = some i ∧ (s.nodes p).next = none := by
  obtain ⟨m, found⟩ := List.mem_iff_getElem?.mp ((queue.queued i).mpr (by rw [linking]; rfl))
  cases m with
  | zero =>
    have leading := (queue.leads 0 i found).mp rfl
    rw [linking] at leading
    cases leading
  | succ k =>
    have inside := (List.getElem?_eq_some_iff.mp found).1
    obtain ⟨q, atK⟩ : ∃ q, Q[k]? = some q := ⟨Q[k], List.getElem?_eq_getElem (by omega)⟩
    rcases queue.behind k q i atK found with ⟨-, notLinking⟩ | ⟨unlinked, linkQ⟩
    · rw [linking] at notLinking
      cases notLinking
    · rw [linking] at linkQ
      cases linkQ
      exact ⟨k, atK, found, unlinked⟩

/-- The write of `prev.next` links a CPU behind its predecessor, whose node then names it. -/
theorem State.Queue.link (queue : s.Queue Q) {i p : Cpu} (linking : s.phase i = .link p) :
    (⟨s.word, Function.update s.nodes p { s.nodes p with next := some i },
      Function.update s.phase i .waitNode⟩ : State).Queue Q := by
  obtain ⟨k, atK, after, unlinked⟩ := queue.behind_of_link linking
  have apart : p ≠ i := fun same => by
    subst same
    have := eq_of_getElem?_eq queue.nodup atK after
    omega
  -- the write changes `p`'s `next` and no flag
  have flags : ∀ j, (Function.update s.nodes p { s.nodes p with next := some i } j).locked =
      (s.nodes j).locked := by
    intro j
    by_cases here : j = p
    · subst here
      simp
    · simp [Function.update_of_ne here]
  have atPred : ∀ {m}, Q[m]? = some p → m = k := fun found =>
    eq_of_getElem?_eq queue.nodup found atK
  have atI : ∀ {m}, Q[m]? = some i → m = k + 1 := fun found =>
    eq_of_getElem?_eq queue.nodup found after
  refine ⟨queue.nodup, fun j => ?_, fun m j found => ?_, fun m j found => ?_,
    fun m j l atM next => ?_, fun j last => ?_, queue.tail, fun j c holding => ?_,
    fun j isFresh => ?_⟩
  · by_cases here : j = i
    · subst here
      simpa [linking, Phase.queued] using queue.queued j
    · simpa [Function.update_of_ne here] using queue.queued j
  · rw [Phase.leads_congr _ (flags j)]
    by_cases here : j = i
    · subst here
      have place := atI found
      subst place
      simp [Phase.leads, queue.waiting k j after]
    · simpa [Function.update_of_ne here] using queue.leads m j found
  · rw [flags j]
    exact queue.waiting m j found
  · by_cases here : j = p
    · -- the pair of `p` and `i`, now linked
      subst here
      have place := atPred atM
      subst place
      have isI : l = i := Option.some.inj (next.symm.trans after)
      subst isI
      simp [Phase.linking]
    · have notI : l ≠ i := fun same => by
        subst same
        have place := atI next
        exact here (Option.some.inj (atM.symm.trans (by rw [show m = k by omega]; exact atK)))
      simpa [Function.update_of_ne here, Function.update_of_ne notI] using
        queue.behind m j l atM next
  · -- `i` stands behind `p`, so `p` is not the last
    have notP : j ≠ p := fun same => by
      subst same
      have place := atPred (getElem?_of_getLast? last)
      have inside := (List.getElem?_eq_some_iff.mp after).1
      omega
    simpa [Function.update_of_ne notP] using queue.last j last
  · by_cases here : j = i
    · subst here
      simp [Phase.localNext] at holding
    · have kept := queue.localNext j c (by simpa [Function.update_of_ne here] using holding)
      have notP : j ≠ p := fun same => by
        subst same
        rw [unlinked] at kept
        cases kept
      simpa [Function.update_of_ne notP] using kept
  · by_cases here : j = i
    · subst here
      simp [Phase.fresh] at isFresh
    · have wasFresh : (s.phase j).fresh = true := by
        simpa [Function.update_of_ne here] using isFresh
      have notP : j ≠ p := fun same => by
        subst same
        have queuedP := (queue.queued j).mp (List.mem_of_getElem? atK)
        rw [Phase.not_fresh_of_queued queuedP] at wasFresh
        cases wasFresh
      simpa [Function.update_of_ne notP] using queue.fresh j wasFresh

/-- The successor a head hands over to stands second in the queue, behind the head, and
waits for its flag, which is still clear. -/
theorem State.Queue.passOn_target (queue : s.Queue Q) {i c : Cpu}
    (passing : s.phase i = .passOn c) :
    Q[0]? = some i ∧ Q[1]? = some c ∧ s.phase c = .waitNode ∧ (s.nodes c).locked = false := by
  have named : (s.nodes i).next = some c := queue.localNext i c (by rw [passing]; rfl)
  have atZero := queue.first (Phase.leads_of_localNext (s.nodes i) (by rw [passing]; rfl))
  have atOne := queue.next_of_node atZero named
  refine ⟨atZero, atOne, ?_, queue.waiting 0 c atOne⟩
  -- second in the queue, `c` does not lead it, and `i`'s node already names it
  have queuedC := (queue.queued c).mp (List.mem_of_getElem? atOne)
  have follows : (s.phase c).leads (s.nodes c) = false := by
    simpa using queue.leads 1 c atOne
  rcases Phase.link_or_wait queuedC follows with ⟨p, linkP⟩ | ⟨waitNode, -⟩
  · rcases queue.behind 0 i c atZero atOne with ⟨-, notLinking⟩ | ⟨unlinked, -⟩
    · rw [linkP] at notLinking
      cases notLinking
    · rw [named] at unlinked
      cases unlinked
  · exact waitNode

/-- The store into the successor's flag hands the head of the queue over to it. -/
theorem State.Queue.passOn (queue : s.Queue Q) {i c : Cpu} (passing : s.phase i = .passOn c) :
    ∃ rest, Q = i :: rest ∧ (⟨s.word, Function.update s.nodes c { s.nodes c with locked := true },
      Function.update s.phase i .held⟩ : State).Queue rest := by
  obtain ⟨atZero, atOne, waits, -⟩ := queue.passOn_target passing
  obtain ⟨rest, rfl⟩ : ∃ rest, Q = i :: rest := by
    cases Q with
    | nil => simp at atZero
    | cons j rest =>
      simp only [List.getElem?_cons_zero, Option.some.injEq] at atZero
      exact ⟨rest, by rw [atZero]⟩
  simp only [List.getElem?_cons_succ] at atOne
  have nodup := List.nodup_cons.mp queue.nodup
  have notI : ∀ {k j}, rest[k]? = some j → j ≠ i := fun found same =>
    nodup.1 (same ▸ List.mem_of_getElem? found)
  have atC : ∀ {k}, rest[k]? = some c → k = 0 := fun found =>
    eq_of_getElem?_eq nodup.2 found atOne
  -- the store changes `c`'s flag and no `next`
  have links : ∀ j, (Function.update s.nodes c { s.nodes c with locked := true } j).next =
      (s.nodes j).next := by
    intro j
    by_cases here : j = c
    · subst here
      simp
    · simp [Function.update_of_ne here]
  refine ⟨rest, rfl, nodup.2, fun j => ?_, fun k j found => ?_, fun k j found => ?_,
    fun k j l atK next => ?_, fun j last => ?_, ?_, fun j d holding => ?_, fun j isFresh => ?_⟩
  · by_cases here : j = i
    · subst here
      simp [nodup.1, Phase.queued]
    · simpa [Function.update_of_ne here, here] using queue.queued j
  · by_cases here : j = c
    · subst here
      simp [atC found, Function.update_of_ne (notI found), waits, Phase.leads]
    · have notFirst : k ≠ 0 := by
        rintro rfl
        exact here (Option.some.inj (found.symm.trans atOne))
      have old := queue.leads (k + 1) j (by simpa using found)
      simp only [Nat.add_one_ne_zero, false_iff, Bool.not_eq_true] at old
      simp [Function.update_of_ne (notI found), Function.update_of_ne here, notFirst, old]
  · have notC : j ≠ c := fun same => by
      subst same
      have := atC found
      omega
    simpa [Function.update_of_ne notC] using queue.waiting (k + 1) j (by simpa using found)
  · rw [links j]
    simpa [Function.update_of_ne (notI next)] using
      queue.behind (k + 1) j l (by simpa using atK) (by simpa using next)
  · rw [links j]
    exact queue.last j (by simp [List.getLast?_cons, last])
  · have nonempty : rest ≠ [] := fun empty => by simp [empty] at atOne
    obtain ⟨d, more, rfl⟩ := List.exists_cons_of_ne_nil nonempty
    simpa [List.getLast?_cons] using queue.tail
  · by_cases here : j = i
    · subst here
      simp [Phase.localNext] at holding
    · rw [links j]
      exact queue.localNext j d (by simpa [Function.update_of_ne here] using holding)
  · by_cases here : j = i
    · subst here
      simp [Phase.fresh] at isFresh
    · have wasFresh : (s.phase j).fresh = true := by
        simpa [Function.update_of_ne here] using isFresh
      have notC : j ≠ c := fun same => by
        subst same
        rw [waits] at wasFresh
        cases wasFresh
      simpa [Function.update_of_ne notC] using queue.fresh j wasFresh

/-- The `compare_exchange` of a head that is still the tail empties the queue, which held it
alone. -/
theorem State.Queue.empty (queue : s.Queue Q) {i : Cpu}
    (leading : (s.phase i).leads (s.nodes i) = true) (mine : s.word.tail = encodeTail i)
    {ph : Phase} {w : QVal} (zero : w.tail = 0) (out : ph.queued = false)
    (plain : ph.fresh = false) (noNext : ph.localNext = none) :
    Q = [i] ∧ (⟨w, s.nodes, Function.update s.phase i ph⟩ : State).Queue [] := by
  have atZero := queue.first leading
  have atEnd := getElem?_of_getLast? (queue.getLast?_of_tail mine)
  have single : Q = [i] := by
    have place := eq_of_getElem?_eq queue.nodup atZero atEnd
    have inside := (List.getElem?_eq_some_iff.mp atZero).1
    match Q, atZero with
    | [_], atZero => simpa using atZero
    | _ :: _ :: _, _ => simp at place
  subst single
  refine ⟨rfl, List.nodup_nil, fun j => ?_, fun k j found => by simp at found,
    fun k j found => by simp at found, fun k j l found => by simp at found,
    fun j found => by simp at found, by simp [zero], fun j c holding => ?_, fun j isFresh => ?_⟩
  · by_cases here : j = i
    · subst here
      simp [out]
    · simpa [Function.update_of_ne here, here] using queue.queued j
  · by_cases here : j = i
    · subst here
      simp [noNext] at holding
    · exact queue.localNext j c (by simpa [Function.update_of_ne here] using holding)
  · by_cases here : j = i
    · subst here
      simp [plain] at isFresh
    · exact queue.fresh j (by simpa [Function.update_of_ne here] using isFresh)

end Queue

end QSpinLock

end FtlOs
