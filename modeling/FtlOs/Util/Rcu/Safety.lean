import FtlOs.Util.Rcu.Inventory

/-!
# No use after free while the `critical_end` calls do not overlap

Everything a hart read in its section stays alive until the section ends, in every run in which
no hart enters `RcuManager::critical_end` while another is inside it (`run_serial_safe`).  The
argument follows the bits of `flags`: a reading hart has one of its bits set, and whoever holds
an object of `rcu_current` has its current bit set (`Inv`), so the rotation, which finds the
current half empty, frees nothing that is held and moves the pending bits of the holders of
the other queues into the current half.  Between the exchange and the swap only the hart inside
`critical_end` changes the queues; an overlapping `critical_end` breaks exactly this, and
`race_unsafe` is a run of three harts that frees an object a reader holds.
-/

namespace FtlOs

namespace Rcu

/-! ## The bits of `flags` -/

/-- Bit `n` of a `u64`. -/
def bit (x : UInt64) (n : Nat) : Bool := x.toBitVec.getLsbD n

/-- Hart `h`'s bit in the pending half. -/
def pendingBit (x : UInt64) (h : Hart) : Bool := bit x h.val

/-- Hart `h`'s bit in the current half. -/
def currentBit (x : UInt64) (h : Hart) : Bool := bit x (h.val + 32)

@[simp] theorem bit_zero (n : Nat) : bit 0 n = false := by simp [bit]

@[simp] theorem bit_or (x y : UInt64) (n : Nat) : bit (x ||| y) n = (bit x n || bit y n) := by
  simp [bit]

@[simp] theorem bit_and (x y : UInt64) (n : Nat) : bit (x &&& y) n = (bit x n && bit y n) := by
  simp [bit]

theorem bit_not (x : UInt64) {n : Nat} (hn : n < 64) : bit (~~~x) n = !bit x n := by
  simp [bit, hn]

theorem bit_shiftRight (x : UInt64) (n : Nat) : bit (x >>> 32) n = bit x (n + 32) := by
  simp [bit, Nat.add_comm]

theorem bit_shiftLeft_add (x : UInt64) {n : Nat} (hn : n < 32) :
    bit (x <<< 32) (n + 32) = bit x n := by
  simp [bit, BitVec.getLsbD_eq_getElem (show n < 64 by omega)]
  omega

theorem bit_maskPending (i : Hart) (n : Nat) : bit (maskPending i) n = decide (n = i.val) := by
  have small := i.isLt
  rw [Bool.eq_iff_iff]
  simp [bit, maskPending, BitVec.getLsbD_shiftLeft, Nat.mod_eq_of_lt (show i.val < 64 by omega)]
  omega

theorem bit_maskCurrent (i : Hart) (n : Nat) : bit (maskCurrent i) n = decide (n = i.val + 32) := by
  have small := i.isLt
  rw [Bool.eq_iff_iff]
  simp [bit, maskCurrent, maskPending, BitVec.getLsbD_shiftLeft,
    Nat.mod_eq_of_lt (show i.val < 64 by omega)]
  omega

theorem eq_zero_iff_bit (x : UInt64) : x = 0 ↔ ∀ n < 64, bit x n = false := by
  simp [bit, ← UInt64.toBitVec_inj, BitVec.eq_of_getLsbD_eq_iff]

/-- The pending bit decides `critical_start`'s test. -/
theorem and_maskPending_eq_zero (x : UInt64) (i : Hart) :
    (x &&& maskPending i == 0) = !pendingBit x i := by
  have small : i.val < 64 := by omega
  rw [Bool.eq_iff_iff, beq_iff_eq, eq_zero_iff_bit]
  simp only [bit_and, bit_maskPending, Bool.and_eq_false_iff, decide_eq_false_iff_not, pendingBit]
  constructor
  · intro zero
    simpa using zero i.val small
  · intro clear n _
    by_cases at_i : n = i.val
    · exact .inl (at_i ▸ by simpa using clear)
    · exact .inr at_i

/-- Clearing hart `i`'s bits leaves every other bit. -/
theorem bit_clear (x : UInt64) (i : Hart) {n : Nat} (hn : n < 64) (pending : n ≠ i.val)
    (current : n ≠ i.val + 32) : bit (x &&& ~~~maskAll i) n = bit x n := by
  simp [maskAll, bit_not _ hn, bit_maskPending, bit_maskCurrent, pending, current]

theorem pendingBit_clear (x : UInt64) {h i : Hart} (other : h ≠ i) :
    pendingBit (x &&& ~~~maskAll i) h = pendingBit x h :=
  bit_clear x i (by omega) (Fin.val_ne_of_ne other) (by omega)

theorem currentBit_clear (x : UInt64) {h i : Hart} (other : h ≠ i) :
    currentBit (x &&& ~~~maskAll i) h = currentBit x h :=
  bit_clear x i (by omega) (by omega) (by have := Fin.val_ne_of_ne other; omega)

/-! ## What `critical_end`'s exchange does to the bits -/

section NextFlags

variable {prev : UInt64} {i h : Hart} {needRelease : Bool}

/-- Without a rotation the loop only clears the hart's own bits. -/
theorem nextFlags_of_keep (keep : (nextFlags prev i needRelease).2 = false) :
    (nextFlags prev i needRelease).1 = prev &&& ~~~maskAll i := by
  by_cases empty : (prev &&& ~~~maskAll i) >>> 32 = 0
  · simp [nextFlags, empty] at keep
  · simp [nextFlags, empty]

/-- A rotation happens only when the cleared current half is empty; it moves the pending half up,
with the hart's own current bit as a lock when there is something to free. -/
theorem nextFlags_of_rotate (rotate : (nextFlags prev i needRelease).2 = true) :
    (prev &&& ~~~maskAll i) >>> 32 = 0 ∧
      (nextFlags prev i needRelease).1 = if needRelease then
        ((prev &&& ~~~maskAll i) <<< 32) ||| maskCurrent i else (prev &&& ~~~maskAll i) <<< 32 := by
  by_cases empty : (prev &&& ~~~maskAll i) >>> 32 = 0
  · simp [nextFlags, empty]
  · simp [nextFlags, empty] at rotate

theorem bits_nextFlags_of_keep (keep : (nextFlags prev i needRelease).2 = false) (other : h ≠ i) :
    pendingBit (nextFlags prev i needRelease).1 h = pendingBit prev h ∧
      currentBit (nextFlags prev i needRelease).1 h = currentBit prev h := by
  rw [nextFlags_of_keep keep]
  exact ⟨pendingBit_clear prev other, currentBit_clear prev other⟩

/-- At a rotation no other hart has its current bit. -/
theorem currentBit_of_rotate (rotate : (nextFlags prev i needRelease).2 = true) (other : h ≠ i) :
    currentBit prev h = false := by
  have empty := congrArg (bit · h.val) (nextFlags_of_rotate rotate).1
  simp only [bit_shiftRight, bit_zero] at empty
  rwa [bit_clear prev i (by omega) (by omega) (by have := Fin.val_ne_of_ne other; omega)] at empty

/-- A rotation moves every other hart's pending bit to its current bit. -/
theorem currentBit_nextFlags_of_rotate (rotate : (nextFlags prev i needRelease).2 = true)
    (other : h ≠ i) : currentBit (nextFlags prev i needRelease).1 h = pendingBit prev h := by
  have not_own : h.val + 32 ≠ i.val + 32 := by have := Fin.val_ne_of_ne other; omega
  rw [(nextFlags_of_rotate rotate).2]
  split <;>
  · simp only [currentBit, bit_or, bit_maskCurrent, not_own, decide_false, Bool.or_false,
      bit_shiftLeft_add _ h.isLt]
    exact pendingBit_clear prev other

end NextFlags

/-- Clearing hart `i`'s current bit leaves every other bit. -/
theorem bit_clearCurrent (x : UInt64) (i : Hart) {n : Nat} (hn : n < 64)
    (current : n ≠ i.val + 32) :
    bit (x &&& ~~~maskCurrent i) n = bit x n := by
  simp [bit_not _ hn, bit_maskCurrent, current]

/-- `fast_append` keeps what both held. -/
theorem mem_fastAppend_fst {α : Type} {o : α} {dst src : List α} :
    o ∈ (fastAppend dst src).1 ↔ o ∈ dst ∨ o ∈ src := by
  unfold fastAppend
  split <;> simp [or_comm]

/-! ## The invariant of serial runs -/

/-- Every hart that holds an object of `q` has its current bit. -/
def Covered (s : State) (q : List Obj) : Prop :=
  ∀ h, ∀ o ∈ s.refs h, o ∈ q → currentBit s.flags h = true

/-- No hart holds an object of `q`. -/
def Unheld (s : State) (q : List Obj) : Prop := ∀ h, ∀ o ∈ s.refs h, o ∉ q

/-- What hart `e`'s place inside `critical_end` says of the state: the exchange is the one its
loop computed, what it will move to `rcu_current` is held only by harts with their current bit,
and what it will free is held by no one. -/
def PhaseInv (s : State) (e : Hart) : Phase → Prop
  | .endCas prev next release needRelease => (next, release) = nextFlags prev e needRelease
  | .appendCurrent => Covered s (s.localRcu e).pending
  | .swap => Unheld s s.cp.rcuCurrent ∧ Covered s (s.cp.rcuPending ++ (s.localRcu e).pending)
  | .unlock | .release => Unheld s (s.localRcu e).pending
  | _ => True

theorem PhaseInv.of_not_ending {s : State} {e : Hart} {p : Phase} (outside : p.ending = false) :
    PhaseInv s e p := by
  cases p with
  | idle | startLoad | startOr | endLoad | endRead _ | endCas _ _ _ _ | appendPending => trivial
  | appendCurrent | swap | unlock | release => cases outside

theorem PhaseInv.of_phase_eq {s : State} {e : Hart} {p : Phase} (eq : s.phase e = p)
    (inv : PhaseInv s e p) : PhaseInv s e (s.phase e) := eq ▸ inv

/-- The invariant of the runs in which the `critical_end` calls do not overlap; `PhaseInv`
is what the place of a hart inside `critical_end` adds.  `Inv.outside` and `Inv.inside` say
once what a step outside and inside `critical_end` has to keep. -/
structure Inv (s : State) : Prop where
  counted : inventory s = Multiset.range s.fresh
  serial : Serial s
  /-- only a hart in its section, and between the manager's calls, holds objects -/
  reading : ∀ h, s.refs h ≠ [] → (s.localRcu h).critical ∧ s.phase h = .idle
  ending : ∀ h, (s.phase h).ending → (s.localRcu h).critical = false
  /-- a hart in its section has one of its bits -/
  protect : ∀ h, (s.localRcu h).critical → s.phase h = .idle →
    pendingBit s.flags h ∨ currentBit s.flags h
  current : Covered s s.cp.rcuCurrent
  phases : ∀ h, PhaseInv s h (s.phase h)
  safe : Safe s

section Transfer

variable {s s' : State}

/-- The holders of `s'` are those of `s`, and readers of the cell of `s`. -/
def Gains (s s' : State) : Prop := ∀ h, ∀ o ∈ s'.refs h, o ∈ s.refs h ∨ o = s.cell

theorem Covered.transfer {q : List Obj} (cov : Covered s q) (gains : Gains s s')
    (fresh : s.cell ∉ q) (bits : ∀ h, currentBit s.flags h → currentBit s'.flags h) :
    Covered s' q := by
  intro h o held member
  rcases gains h o held with old | rfl
  · exact bits h (cov h o old member)
  · exact absurd member fresh

theorem Unheld.transfer {q : List Obj} (un : Unheld s q) (gains : Gains s s')
    (fresh : s.cell ∉ q) : Unheld s' q := by
  intro h o held member
  rcases gains h o held with old | rfl
  · exact un h o old member
  · exact fresh member

/-- A hart's place inside `critical_end` keeps what it says through a step that leaves the
manager's queues and the hart's own, and lets the bits grow. -/
theorem PhaseInv.transfer {e : Hart} {p : Phase} (inv : PhaseInv s e p) (gains : Gains s s')
    (counted : inventory s = Multiset.range s.fresh) (cp : s'.cp = s.cp)
    (pending : (s'.localRcu e).pending = (s.localRcu e).pending)
    (bits : ∀ h, currentBit s.flags h → currentBit s'.flags h) : PhaseInv s' e p := by
  have notPending := cell_not_mem_pending counted e
  cases p with
  | appendCurrent =>
    have covered : Covered s (s.localRcu e).pending := inv
    show Covered s' (s'.localRcu e).pending
    rw [pending]
    exact covered.transfer gains notPending bits
  | swap =>
    have swapped : Unheld s s.cp.rcuCurrent ∧
        Covered s (s.cp.rcuPending ++ (s.localRcu e).pending) := inv
    show Unheld s' s'.cp.rcuCurrent ∧ Covered s' (s'.cp.rcuPending ++ (s'.localRcu e).pending)
    rw [pending, cp]
    refine ⟨swapped.1.transfer gains (cell_not_mem_rcuCurrent counted),
      swapped.2.transfer gains ?_ bits⟩
    simp [cell_not_mem_rcuPending counted, notPending]
  | unlock | release =>
    have unheld : Unheld s (s.localRcu e).pending := inv
    show Unheld s' (s'.localRcu e).pending
    rw [pending]
    exact unheld.transfer gains notPending
  | idle | startLoad | startOr | endLoad | endRead _ | endCas _ _ _ _ | appendPending => exact inv

/-- A step of hart `x` outside `critical_end` that leaves the manager's queues, the other harts
and the freed, lets the bits grow, and makes no holder but of the cell, keeps the invariant if
it keeps it for `x`. -/
theorem Inv.outside {x : Hart} (hi : Inv s) (counted : inventory s' = Multiset.range s'.fresh)
    (serial : Serial s') (gains : Gains s s') (cp : s'.cp = s.cp) (freed : s'.freed = s.freed)
    (bits : ∀ h, currentBit s.flags h → currentBit s'.flags h)
    (pendingBits : ∀ h, pendingBit s.flags h → pendingBit s'.flags h)
    (others : ∀ h, h ≠ x →
      s'.phase h = s.phase h ∧ s'.localRcu h = s.localRcu h ∧ s'.refs h = s.refs h)
    (reading : s'.refs x ≠ [] → (s'.localRcu x).critical ∧ s'.phase x = .idle)
    (ending : (s'.phase x).ending → (s'.localRcu x).critical = false)
    (protect : (s'.localRcu x).critical → s'.phase x = .idle →
      pendingBit s'.flags x ∨ currentBit s'.flags x)
    (phase : PhaseInv s' x (s'.phase x)) : Inv s' where
  counted := counted
  serial := serial
  reading h := by
    rcases eq_or_ne h x with rfl | other
    · exact reading
    · obtain ⟨samePhase, sameLocal, sameRefs⟩ := others h other
      rw [samePhase, sameLocal, sameRefs]
      exact hi.reading h
  ending h := by
    rcases eq_or_ne h x with rfl | other
    · exact ending
    · obtain ⟨samePhase, sameLocal, -⟩ := others h other
      rw [samePhase, sameLocal]
      exact hi.ending h
  protect h := by
    rcases eq_or_ne h x with rfl | other
    · exact protect
    · obtain ⟨samePhase, sameLocal, -⟩ := others h other
      rw [samePhase, sameLocal]
      intro critical idle
      exact (hi.protect h critical idle).imp (pendingBits h) (bits h)
  current := by
    rw [cp]
    exact hi.current.transfer gains (cell_not_mem_rcuCurrent hi.counted) bits
  phases h := by
    rcases eq_or_ne h x with rfl | other
    · exact phase
    · obtain ⟨samePhase, sameLocal, -⟩ := others h other
      rw [samePhase]
      exact (hi.phases h).transfer gains hi.counted cp (by rw [sameLocal]) bits
  safe := by
    have unheld : Unheld s' s.freed := Unheld.transfer hi.safe gains (cell_not_mem_freed hi.counted)
    rw [Safe, freed]
    exact unheld

/-- A hart that is not between the manager's calls holds nothing. -/
theorem Inv.refs_eq_nil {x : Hart} (hi : Inv s) (busy : s.phase x ≠ .idle) : s.refs x = [] := by
  by_contra nonempty
  exact busy (hi.reading x nonempty).2

/-- A hart inside a call of the manager is none of the holders. -/
theorem Inv.ne_of_holds {x h : Hart} (hi : Inv s) (busy : s.phase x ≠ .idle)
    (holds : s.refs h ≠ []) : h ≠ x := by
  rintro rfl
  exact holds (hi.refs_eq_nil busy)

/-- A step of the hart `x` inside `critical_end`, which leaves the reads and the other harts,
keeps the invariant if it keeps the bits of the harts in their sections, `rcu_current`'s
holders covered, `x`'s own part, and the freed unheld. -/
theorem Inv.inside {x : Hart} (hi : Inv s) (inside : (s.phase x).ending)
    (counted : inventory s' = Multiset.range s'.fresh) (serial : Serial s')
    (refs : s'.refs = s.refs) (critical : (s'.localRcu x).critical = (s.localRcu x).critical)
    (others : ∀ h, h ≠ x → s'.phase h = s.phase h ∧ s'.localRcu h = s.localRcu h)
    (protect : ∀ h, h ≠ x → (s.localRcu h).critical → s.phase h = .idle →
      pendingBit s'.flags h ∨ currentBit s'.flags h)
    (current : Covered s' s'.cp.rcuCurrent) (phase : PhaseInv s' x (s'.phase x))
    (safe : Safe s') : Inv s' where
  counted := counted
  serial := serial
  reading h := by
    rcases eq_or_ne h x with rfl | other
    · rw [refs, hi.refs_eq_nil (by rintro idle; simp [idle, Phase.ending] at inside)]
      exact absurd rfl
    · obtain ⟨samePhase, sameLocal⟩ := others h other
      rw [samePhase, sameLocal, refs]
      exact hi.reading h
  ending h := by
    rcases eq_or_ne h x with rfl | other
    · intro _
      rw [critical]
      exact hi.ending h inside
    · obtain ⟨samePhase, sameLocal⟩ := others h other
      rw [samePhase, sameLocal]
      exact hi.ending h
  protect h := by
    rcases eq_or_ne h x with rfl | other
    · intro isCritical
      rw [critical, hi.ending h inside] at isCritical
      exact absurd isCritical Bool.false_ne_true
    · obtain ⟨samePhase, sameLocal⟩ := others h other
      rw [samePhase, sameLocal]
      exact protect h other
  current := current
  phases h := by
    rcases eq_or_ne h x with rfl | other
    · exact phase
    · -- `x` is the only hart inside `critical_end`
      have outside : (s.phase h).ending = false := by
        by_contra isEnding
        exact other (hi.serial h x (by simpa using isEnding) inside)
      rw [(others h other).1]
      exact PhaseInv.of_not_ending outside
  safe := safe

end Transfer

/-! ## Each step keeps the invariant -/

section Steps

variable {s s' : State} {x : Hart}

/-- A timer tick only sets or clears the flag. -/
theorem Inv.setTick (hi : Inv s) (b : Bool) :
    Inv (s.setLocal x { s.localRcu x with tick := b }) :=
  hi.outside (x := x)
    (by simpa only [inventory, State.setLocal, queued_update_pending] using hi.counted)
    hi.serial (fun _ _ held => .inl held) rfl rfl (fun _ set => set) (fun _ set => set)
    (fun _ other => ⟨rfl, Function.update_of_ne other _ _, rfl⟩)
    (by simpa using hi.reading x) (by simpa using hi.ending x) (by simpa using hi.protect x)
    ((hi.phases x).transfer (fun _ _ held => .inl held) hi.counted rfl (by simp)
      (fun _ set => set))

/-- `LocalRcuManager::critical_end` drops what the hart read and enters `critical_end`. -/
theorem Inv.leave (hi : Inv s) (serial : Serial (criticalEnd s x)) :
    Inv (criticalEnd s x) := by
  by_cases quiet : (!(s.localRcu x).critical && (s.localRcu x).pending.isEmpty) = true
  · simp only [criticalEnd, quiet, if_true] at serial ⊢
    exact hi
  · simp only [criticalEnd, quiet, Bool.false_eq_true, if_false] at serial ⊢
    refine hi.outside (x := x)
      (by simpa only [inventory, State.setLocal, State.setPhase, queued_update_pending]
        using hi.counted)
      serial ?_ rfl rfl (fun _ set => set) (fun _ set => set)
      (fun _ other => ⟨Function.update_of_ne other _ _, Function.update_of_ne other _ _,
        Function.update_of_ne other _ _⟩)
      (by simp) (by simp) (by simp) (PhaseInv.of_phase_eq (p := .endLoad) (by simp) trivial)
    intro h o held
    left
    rcases eq_or_ne h x with rfl | other
    · simp at held
    · simpa [Function.update_of_ne other] using held

/-- The steps of a hart outside `critical_end`. -/
theorem Inv.step_outside {a : Action} (hi : Inv s) (stepped : step s x a = some s')
    (counted : inventory s' = Multiset.range s'.fresh) (serial : Serial s')
    (notExec : a ≠ .exec) : Inv s' := by
  cases a with
  | exec => exact absurd rfl notExec
  | tick =>
    simp only [step, Option.some.injEq] at stepped
    subst stepped
    exact hi.setTick true
  | criticalStart =>
    simp only [step] at stepped
    split_ifs at stepped with busy isCritical <;> cases stepped
    · exact hi
    · -- the hart was in no section, so it held nothing
      refine hi.outside (x := x) counted serial (fun _ _ held => .inl held) rfl rfl
        (fun _ set => set) (fun _ set => set)
        (fun _ other => ⟨Function.update_of_ne other _ _, Function.update_of_ne other _ _, rfl⟩)
        ?_ (by simp [Phase.ending]) (by simp)
        (PhaseInv.of_phase_eq (p := .startLoad) (by simp) trivial)
      intro nonempty
      exact absurd (hi.reading x nonempty).1 (by simpa using isCritical)
  | criticalEnd =>
    simp only [step] at stepped
    split_ifs at stepped
    cases stepped
    exact hi.leave serial
  | criticalEndTick =>
    simp only [step] at stepped
    split_ifs at stepped <;> cases stepped
    · exact hi
    · exact (hi.setTick false).leave serial
  | read =>
    simp only [step] at stepped
    split_ifs at stepped with busy
    cases stepped
    simp only [not_or, ne_eq, not_not, Bool.not_eq_true', Bool.not_eq_false] at busy
    refine hi.outside (x := x) counted serial ?_ rfl rfl (fun _ set => set) (fun _ set => set)
      (fun _ other => ⟨rfl, rfl, Function.update_of_ne other _ _⟩)
      (fun _ => ⟨busy.2, busy.1⟩) (hi.ending x) (hi.protect x)
      (PhaseInv.of_phase_eq (p := .idle) busy.1 trivial)
    -- the reader of the cell is the one new holder
    intro h o held
    rcases eq_or_ne h x with rfl | other
    · simpa using held
    · exact .inl (by simpa [Function.update_of_ne other] using held)
  | write =>
    simp only [step] at stepped
    split_ifs at stepped with busy
    cases stepped
    simp only [not_or, ne_eq, not_not, Bool.not_eq_true', Bool.not_eq_false] at busy
    exact hi.outside (x := x) counted hi.serial (fun _ _ held => .inl held) rfl rfl
      (fun _ set => set) (fun _ set => set)
      (fun _ other => ⟨rfl, Function.update_of_ne other _ _, rfl⟩)
      (by simpa using hi.reading x) (by simpa using hi.ending x) (by simpa using hi.protect x)
      (PhaseInv.of_phase_eq (p := .idle) busy.1 trivial)

/-- The instructions of `critical_start`. -/
theorem Inv.exec_start (hi : Inv s) (stepped : exec s x = some s')
    (counted : inventory s' = Multiset.range s'.fresh) (serial : Serial s')
    (starting : s.phase x = .startLoad ∨ s.phase x = .startOr) : Inv s' := by
  have empty : s.refs x = [] := hi.refs_eq_nil (by rcases starting with busy | busy <;> simp [busy])
  rcases starting with phase | phase
  · -- the load: the hart goes on to `fetch_or` unless its pending bit is already set
    simp only [exec, phase, Option.some.injEq] at stepped
    subst stepped
    refine hi.outside (x := x) counted serial (fun _ _ held => .inl held) rfl rfl
      (fun _ set => set) (fun _ set => set)
      (fun _ other => ⟨Function.update_of_ne other _ _, rfl, rfl⟩)
      (fun nonempty => absurd empty nonempty) ?_ ?_ ?_
    · split <;> simp [Phase.ending]
    · intro _ idle
      simp only [State.setPhase, Function.update_self, and_maskPending_eq_zero] at idle
      split at idle
      · cases idle
      · rename_i set
        exact .inl (by simpa using set)
    · exact PhaseInv.of_not_ending (by split <;> simp [Phase.ending])
  · -- the `fetch_or` sets the pending bit and no other
    simp only [exec, phase, Option.some.injEq] at stepped
    subst stepped
    have grows : ∀ n, bit s.flags n → bit (s.flags ||| maskPending x) n := fun n set => by
      simp [set]
    exact hi.outside (x := x) counted serial (fun _ _ held => .inl held) rfl rfl
      (fun h => grows (h.val + 32)) (fun h => grows h.val)
      (fun _ other => ⟨Function.update_of_ne other _ _, rfl, rfl⟩)
      (fun nonempty => absurd empty nonempty) (by simp [Phase.ending])
      (fun _ _ => .inl (by simp [pendingBit, bit_maskPending]))
      (PhaseInv.of_phase_eq (p := .idle) (by simp) trivial)

/-- The exchange of `critical_end`: without a rotation the other harts' bits stay; with one,
every hart in its section has its current bit, and no one holds what `rcu_current` holds. -/
theorem Inv.exec_exchange {prev next : UInt64} {release needRelease : Bool} (hi : Inv s)
    (phase : s.phase x = .endCas prev next release needRelease) (same : s.flags = prev)
    (counted : inventory
      { s.setPhase x (afterCas release needRelease (s.localRcu x).pending) with flags := next } =
        Multiset.range s.fresh)
    (serial : Serial
      { s.setPhase x (afterCas release needRelease (s.localRcu x).pending) with flags := next }) :
    Inv { s.setPhase x (afterCas release needRelease (s.localRcu x).pending) with
      flags := next } := by
  have computed : (next, release) = nextFlags prev x needRelease := by
    have inv := hi.phases x
    rwa [phase] at inv
  obtain ⟨rfl, rfl⟩ := Prod.ext_iff.mp computed
  subst same
  have holderOther : ∀ h, s.refs h ≠ [] → h ≠ x := fun _ => hi.ne_of_holds (by simp [phase])
  have inside : (s.phase x).ending := by simp [phase, Phase.ending]
  revert counted serial
  cases rotate : (nextFlags s.flags x needRelease).2 with
  | false =>
    intro counted serial
    refine hi.inside inside counted serial rfl rfl
      (fun _ other => ⟨Function.update_of_ne other _ _, rfl⟩) ?_ ?_ ?_ hi.safe
    · intro h other critical idle
      rw [(bits_nextFlags_of_keep rotate other).1, (bits_nextFlags_of_keep rotate other).2]
      exact hi.protect h critical idle
    · intro h o held member
      have current := hi.current h o held member
      rwa [← (bits_nextFlags_of_keep rotate (holderOther h (List.ne_nil_of_mem held))).2]
        at current
    · -- the hart leaves `critical_end`, or goes on to append its queue to `rcu_pending`
      simp only [afterCas, Bool.not_false, if_true]
      split
      · exact PhaseInv.of_phase_eq (p := .idle) (by simp) trivial
      · exact PhaseInv.of_phase_eq (p := .appendPending) (by simp) trivial
  | true =>
    intro counted serial
    have cleared : ∀ h, h ≠ x → currentBit s.flags h = false :=
      fun _ other => currentBit_of_rotate rotate other
    -- a hart in its section had its pending bit, which is now its current bit
    have moved : ∀ h, h ≠ x → (s.localRcu h).critical → s.phase h = .idle →
        currentBit (nextFlags s.flags x needRelease).1 h := by
      intro h other critical idle
      rw [currentBit_nextFlags_of_rotate rotate other]
      simpa [cleared h other] using hi.protect h critical idle
    have covered : ∀ q, Covered { s.setPhase x (afterCas true needRelease (s.localRcu x).pending)
        with flags := (nextFlags s.flags x needRelease).1 } q := by
      intro q h o held _
      have other := holderOther h (List.ne_nil_of_mem held)
      obtain ⟨critical, idle⟩ := hi.reading h (List.ne_nil_of_mem held)
      exact moved h other critical idle
    have unheld : Unheld s s.cp.rcuCurrent := by
      intro h o held member
      have current := hi.current h o held member
      rw [cleared h (holderOther h (List.ne_nil_of_mem held))] at current
      exact Bool.false_ne_true current
    refine hi.inside inside counted serial rfl rfl
      (fun _ other => ⟨Function.update_of_ne other _ _, rfl⟩)
      (fun h other critical idle => .inr (moved h other critical idle)) (covered _) ?_ hi.safe
    simp only [afterCas, Bool.not_true, Bool.false_eq_true, if_false]
    cases needRelease with
    | true => exact PhaseInv.of_phase_eq (p := .swap) (by simp) ⟨unheld, covered _⟩
    | false =>
      simp only [Bool.not_false, if_true]
      split
      · exact PhaseInv.of_phase_eq (p := .idle) (by simp) trivial
      · exact PhaseInv.of_phase_eq (p := .appendCurrent) (by simp) (covered _)

/-- The instructions of `critical_end`. -/
theorem Inv.exec_end (hi : Inv s) (stepped : exec s x = some s')
    (counted : inventory s' = Multiset.range s'.fresh) (serial : Serial s')
    (inside : (s.phase x).ending) : Inv s' := by
  -- the reads, the hart's section and the other harts are the frame of every instruction
  obtain ⟨-, -, refs, critical, others⟩ := exec_frame stepped
  have holderOther : ∀ h, s.refs h ≠ [] → h ≠ x :=
    fun _ => hi.ne_of_holds (by rintro idle; simp [idle, Phase.ending] at inside)
  have own := hi.phases x
  cases phase : s.phase x with
  | idle | startLoad | startOr => simp [phase, Phase.ending] at inside
  | endCas prev next release needRelease =>
    simp only [exec, phase] at stepped
    split at stepped
    · rename_i same
      cases stepped
      exact hi.exec_exchange phase (by simpa using same) counted serial
    · cases stepped
      exact hi.inside inside counted serial refs critical others (fun h _ => hi.protect h)
        hi.current (PhaseInv.of_phase_eq (p := .endRead s.flags) (by simp) trivial) hi.safe
  | endLoad =>
    simp only [exec, phase, Option.some.injEq] at stepped
    subst stepped
    refine hi.inside inside counted serial refs critical others (fun h _ => hi.protect h)
      hi.current ?_ hi.safe
    split
    · split
      · exact PhaseInv.of_phase_eq (p := .idle) (by simp) trivial
      · exact PhaseInv.of_phase_eq (p := .appendPending) (by simp) trivial
    · exact PhaseInv.of_phase_eq (p := .endRead s.flags) (by simp) trivial
  | endRead prev =>
    simp only [exec, phase, Option.some.injEq] at stepped
    subst stepped
    exact hi.inside inside counted serial refs critical others (fun h _ => hi.protect h)
      hi.current (PhaseInv.of_phase_eq (Function.update_self _ _ _) rfl) hi.safe
  | appendPending =>
    simp only [exec, phase, Option.some.injEq] at stepped
    subst stepped
    exact hi.inside inside counted serial refs critical others (fun h _ => hi.protect h)
      hi.current (PhaseInv.of_phase_eq (p := .idle) (by simp) trivial) hi.safe
  | appendCurrent =>
    -- `add` joins `rcu_current`, its holders have their current bits
    have covered : Covered s (s.localRcu x).pending := by rwa [phase] at own
    simp only [exec, phase, Option.some.injEq] at stepped
    subst stepped
    refine hi.inside inside counted serial refs critical others (fun h _ => hi.protect h)
      ?_ (PhaseInv.of_phase_eq (p := .idle) (by simp) trivial) hi.safe
    intro h o held member
    rcases mem_fastAppend_fst.mp member with old | added
    · exact hi.current h o held old
    · exact covered h o held added
  | swap =>
    -- `add` and `rcu_pending` become `rcu_current`; the old one, held by no one, becomes `add`
    have swapped : Unheld s s.cp.rcuCurrent ∧
        Covered s (s.cp.rcuPending ++ (s.localRcu x).pending) := by rwa [phase] at own
    simp only [exec, phase, Option.some.injEq] at stepped
    subst stepped
    refine hi.inside inside counted serial refs critical others (fun h _ => hi.protect h)
      ?_ (PhaseInv.of_phase_eq (p := .unlock) (by simp) ?_) hi.safe
    · intro h o held member
      have moved := mem_fastAppend_fst.mp member
      exact swapped.2 h o held (by simp only [List.mem_append]; exact moved.symm)
    · intro h o held member
      exact swapped.1 h o held (by simpa using member)
  | unlock =>
    -- only the hart's own current bit is cleared, and the hart holds nothing
    have unheld : Unheld s (s.localRcu x).pending := by rwa [phase] at own
    have keeps :
        ∀ h, h ≠ x → currentBit (s.flags &&& ~~~maskCurrent x) h = currentBit s.flags h :=
      fun h other => bit_clearCurrent _ _ (by omega) (by have := Fin.val_ne_of_ne other; omega)
    simp only [exec, phase, Option.some.injEq] at stepped
    subst stepped
    refine hi.inside inside counted serial refs critical others ?_ ?_
      (PhaseInv.of_phase_eq (p := .release) (by simp) unheld) hi.safe
    · intro h other critical idle
      rw [keeps h other]
      simpa [pendingBit, bit_clearCurrent _ _ (show h.val < 64 by omega)
        (show h.val ≠ x.val + 32 by omega)] using hi.protect h critical idle
    · intro h o held member
      rw [keeps h (holderOther h (List.ne_nil_of_mem held))]
      exact hi.current h o held member
  | release =>
    -- what is freed is held by no one
    have unheld : Unheld s (s.localRcu x).pending := by rwa [phase] at own
    simp only [exec, phase, Option.some.injEq] at stepped
    subst stepped
    refine hi.inside inside counted serial refs critical others (fun h _ => hi.protect h)
      hi.current (PhaseInv.of_phase_eq (p := .idle) (by simp) trivial) ?_
    intro h o held freed
    rcases List.mem_append.mp freed with old | added
    · exact hi.safe h o held old
    · exact unheld h o held added

/-- Every step of a hart keeps the invariant, if after it no two harts are inside
`critical_end`. -/
theorem Inv.of_step {a : Action} (hi : Inv s) (stepped : step s x a = some s')
    (serial : Serial s') : Inv s' := by
  have counted := inventory_step stepped hi.counted
  cases a with
  | exec =>
    by_cases inside : (s.phase x).ending
    · exact hi.exec_end stepped counted serial inside
    · have starting : s.phase x = .startLoad ∨ s.phase x = .startOr := by
        cases phase : s.phase x with
        | idle => simp [step, exec, phase] at stepped
        | startLoad => exact .inl rfl
        | startOr => exact .inr rfl
        | _ => simp [phase, Phase.ending] at inside
      exact hi.exec_start stepped counted serial starting
  | tick | criticalStart | criticalEnd | criticalEndTick | read | write =>
    exact hi.step_outside stepped counted serial (by decide)

end Steps

theorem serialSystem_eq_some {s s' : State} {c : Hart × Action} (h : serialSystem s c = some s') :
    system s c = some s' ∧ Serial s' := by
  simpa [serialSystem] using h

theorem init_inv : Inv init where
  counted := by simp [inventory, queued, init]
  serial _ _ ending := by simp [init, Phase.ending] at ending
  reading _ nonempty := absurd rfl nonempty
  ending _ ending := by simp [init, Phase.ending] at ending
  protect _ critical := by simp [init] at critical
  current _ _ held := by simp [init] at held
  phases _ := trivial
  safe _ _ held := by simp [init] at held

/-- In every run in which no hart enters `critical_end` while another is inside it, no hart
holds a freed object: what a hart reads in its section stays alive until the section ends. -/
theorem run_serial_safe {calls : List (Hart × Action)} {s : State}
    (ran : Run.run serialSystem init calls = some s) : Safe s := by
  have preserve : ∀ (s : State) (c : Hart × Action) (s' : State),
      Inv s → True → serialSystem s c = some s' → Inv s' := by
    intro s c s' hi _ stepped
    obtain ⟨stepped, serial⟩ := serialSystem_eq_some stepped
    exact hi.of_step stepped serial
  exact (Run.invariant_of_run preserve calls init s init_inv (fun _ _ => trivial) ran).safe

/-! ## Overlapping `critical_end` calls -/

/-- Harts 0, 1 and 2.  Hart 0 rotates and, before it takes the lock to swap the queues, hart 1
ends a section in which it replaced object 1, appending it to `rcu_pending`; hart 2 read
object 1 after the rotation's exchange.  The swap puts object 1 in `rcu_current`, guarded by the
current half of that exchange, which no longer waits for hart 2, and the next rotation frees it. -/
def race : List (Hart × Action) :=
  -- hart 1 replaces object 0
  [(1, .criticalStart), (1, .exec), (1, .exec), (1, .write),
  -- hart 0 starts a section
   (0, .criticalStart), (0, .exec), (0, .exec),
  -- hart 1 ends: a rotation with nothing to free, object 0 goes to `rcu_current`
   (1, .criticalEnd), (1, .exec), (1, .exec), (1, .exec), (1, .exec),
   (1, .criticalStart), (1, .exec), (1, .exec),
  -- hart 0 ends: a rotation with the lock bit, and it stops before the swap
   (0, .criticalEnd), (0, .exec), (0, .exec), (0, .exec),
  -- hart 2 starts and reads object 1
   (2, .criticalStart), (2, .exec), (2, .exec), (2, .read),
  -- hart 1 replaces object 1 and ends without a rotation: object 1 goes to `rcu_pending`
   (1, .write), (1, .criticalEnd), (1, .exec), (1, .exec), (1, .exec), (1, .exec),
  -- hart 0 swaps, unlocks and frees object 0
   (0, .exec), (0, .exec), (0, .exec),
  -- hart 0 starts and ends a section: the current half is empty, and object 1 is freed
   (0, .criticalStart), (0, .exec), (0, .exec),
   (0, .criticalEnd), (0, .exec), (0, .exec), (0, .exec), (0, .exec), (0, .exec), (0, .exec)]

/-- When two `critical_end` calls overlap, the manager can free an object that a hart read in the
section it is still in. -/
theorem race_unsafe :
    ∃ s, Run.run system init race = some s ∧ 1 ∈ s.refs 2 ∧ 1 ∈ s.freed ∧ ¬Safe s := by
  have found : (Run.run system init race).any
      (fun s => decide (1 ∈ s.refs 2) && decide (1 ∈ s.freed)) = true := by decide
  obtain ⟨s, ran, both⟩ := (Option.any_eq_true _ _).mp found
  simp only [Bool.and_eq_true, decide_eq_true_eq] at both
  exact ⟨s, ran, both.1, both.2, fun safe => safe 2 1 both.1 both.2⟩

/-! ## A serial run that frees -/

/-- Hart 1 replaces object 0 and ends its section, which queues object 0 in `rcu_current`;
hart 2 reads object 1; hart 0 then ends the section it started before, rotates and frees
object 0.  No two `critical_end` calls overlap. -/
def frees : List (Hart × Action) :=
  [(1, .criticalStart), (1, .exec), (1, .exec), (1, .write),
   (0, .criticalStart), (0, .exec), (0, .exec),
   (1, .criticalEnd), (1, .exec), (1, .exec), (1, .exec), (1, .exec),
   (2, .criticalStart), (2, .exec), (2, .exec), (2, .read),
   (0, .criticalEnd), (0, .exec), (0, .exec), (0, .exec), (0, .exec), (0, .exec), (0, .exec)]

theorem run_inventory_frees :
    ∃ s, Run.run system init frees = some s ∧ s.freed = [0] ∧ s.cell = 1 ∧
      inventory s = Multiset.range s.fresh ∧ s.freed.Nodup := by
  have found : (Run.run system init frees).any
      (fun s => decide (s.freed = [0]) && decide (s.cell = 1)) = true := by decide
  obtain ⟨s, ran, both⟩ := (Option.any_eq_true _ _).mp found
  simp only [Bool.and_eq_true, decide_eq_true_eq] at both
  exact ⟨s, ran, both.1, both.2, run_inventory ran⟩

/-- The run `frees` keeps the `critical_end` calls apart: hart 0 frees object 0 while hart 2
holds object 1. -/
theorem run_serial_safe_frees :
    ∃ s, Run.run serialSystem init frees = some s ∧ s.freed = [0] ∧ s.refs 2 = [1] ∧ Safe s := by
  have found : (Run.run serialSystem init frees).any
      (fun s => decide (s.freed = [0]) && decide (s.refs 2 = [1])) = true := by decide
  obtain ⟨s, ran, both⟩ := (Option.any_eq_true _ _).mp found
  simp only [Bool.and_eq_true, decide_eq_true_eq] at both
  exact ⟨s, ran, both.1, both.2, run_serial_safe ran⟩

end Rcu

end FtlOs
