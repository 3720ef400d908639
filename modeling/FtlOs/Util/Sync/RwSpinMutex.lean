import Mathlib

/-!
# The reader-writer spin lock

`RwSpinMutex` of `ftl-util/src/sync/rw_spin_mutex.rs` keeps its whole state in one
`AtomicIsize` word `L`: `0` free, `> 0` readers, `< 0` a writer.  A writer swaps `0` for
`-isize::MAX` and gives it back by adding `isize::MAX`.  `shared_lock` adds `1` first and
looks at the old value afterwards: over a writer it spins, already counted, until the word
turns positive.

A lock user is one call of the four lock functions followed by the life of the guard it
returns; its `Phase` is the atomic instruction it executes next, or the guard it holds.
Users are indexed by a finite type `τ`, and a system step is one user starting a call or
executing one atomic instruction (a load, a `compare_exchange`, a `fetch_add` or
`fetch_sub`).  The word is an `Int`: with at most `isize::MAX` users it stays within
`[-isize::MAX, isize::MAX]`, so no `isize` operation wraps.  `panic!("dead lock")` after
`0x10000000` spins is `none`.

Every user contributes its `weight` to the word: `1` while it holds a shared guard or spins
after its increment, `-isize::MAX` while it holds the unique guard.  The word is the sum of
the weights in every reachable state.  With at most `isize::MAX` users that is enough for
exclusion; with `isize::MAX + 2` of them the increments of `isize::MAX` spinning readers
cancel a writer's `-isize::MAX`, and a second writer takes the lock.
-/

namespace FtlOs

namespace RwSpinMutex

/-- `isize::MAX`. -/
def isizeMax : Int := 2 ^ 63 - 1

/-- `0x10000000`, the spins after which a lock call panics with `"dead lock"`. -/
def deadLock : Nat := 0x10000000

/-- Where one lock user is: the atomic instruction it executes next, or the guard it
holds. -/
inductive Phase where
  | idle
  /-- `unique_lock`, the load of its inner `while` loop after `cnt` spins. -/
  | uniqueLoad (cnt : Nat)
  /-- `unique_lock`, the `compare_exchange(0, -isize::MAX)` after the loop. -/
  | uniqueCas
  /-- `try_unique_lock`, its load. -/
  | tryUniqueLoad
  /-- `try_unique_lock`, its `compare_exchange(0, -isize::MAX)`. -/
  | tryUniqueCas
  /-- `shared_lock`, its `fetch_add(1)`. -/
  | sharedAdd
  /-- `shared_lock` after a `fetch_add` that saw a writer: the load of its spin loop after
  `cnt` spins. -/
  | sharedLoad (cnt : Nat)
  /-- `try_shared_lock`, its first load. -/
  | trySharedLoad
  /-- `try_shared_lock`, its `compare_exchange(cur, cur + 1)`. -/
  | trySharedCas (cur : Int)
  /-- A live `SharedRwMutexGuard`. -/
  | shared
  /-- A live `UniqueRwMutexGuard`. -/
  | unique
  deriving DecidableEq, Repr

/-- The four lock functions. -/
inductive Call where
  | uniqueLock
  | tryUniqueLock
  | sharedLock
  | trySharedLock
  deriving DecidableEq, Repr

/-- The first instruction of a call. -/
def Call.begin : Call → Phase
  | .uniqueLock => .uniqueLoad 0
  | .tryUniqueLock => .tryUniqueLoad
  | .sharedLock => .sharedAdd
  | .trySharedLock => .trySharedLoad

namespace Phase

/-- One atomic instruction of a user in phase `ph` on the word `l`: the phase and word after
it; `none` is `panic!("dead lock")`.  A failed `try_*` returns `None` and the user is idle
again; a guard's drop is its `fetch_sub(1)` or `fetch_add(isize::MAX)`.  An idle user
executes nothing and changes nothing. -/
def step : Phase → Int → Option (Phase × Int)
  | idle, l => some (idle, l)
  | uniqueLoad cnt, l =>
    if l ≠ 0 then
      if cnt + 1 = deadLock then none else some (uniqueLoad (cnt + 1), l)
    else some (uniqueCas, l)
  -- a failed exchange goes round the outer `loop`, with a fresh counter
  | uniqueCas, l => if l = 0 then some (unique, -isizeMax) else some (uniqueLoad 0, l)
  | tryUniqueLoad, l => if l ≠ 0 then some (idle, l) else some (tryUniqueCas, l)
  | tryUniqueCas, l => if l = 0 then some (unique, -isizeMax) else some (idle, l)
  | sharedAdd, l => if 0 ≤ l then some (shared, l + 1) else some (sharedLoad 0, l + 1)
  | sharedLoad cnt, l =>
    if l ≤ 0 then
      if cnt = deadLock then none else some (sharedLoad (cnt + 1), l)
    else some (shared, l)
  | trySharedLoad, l => if 0 ≤ l then some (trySharedCas l, l) else some (idle, l)
  -- a failed exchange retries with the value it read, while that is not negative
  | trySharedCas cur, l =>
    if l = cur then some (shared, cur + 1)
    else if 0 ≤ l then some (trySharedCas l, l) else some (idle, l)
  | shared, l => some (idle, l - 1)
  | unique, l => some (idle, l + isizeMax)

/-- A live shared guard. -/
@[simp] def isShared : Phase → Bool
  | shared => true
  | _ => false

/-- A reader that added itself to the word and spins. -/
@[simp] def isSpinning : Phase → Bool
  | sharedLoad _ => true
  | _ => false

/-- A live unique guard. -/
@[simp] def isUnique : Phase → Bool
  | unique => true
  | _ => false

/-- What a user adds to the word. -/
@[simp] def weight (ph : Phase) : Int :=
  ((ph.isShared || ph.isSpinning).toNat : Int) - isizeMax * (ph.isUnique.toNat : Int)

/-- A retry of `try_shared_lock` only ever holds a value it read as not negative. -/
@[simp] def Valid : Phase → Prop
  | trySharedCas cur => 0 ≤ cur
  | _ => True

theorem isUnique_eq_false {ph : Phase} (other : ph ≠ unique) : ph.isUnique = false := by
  cases ph <;> simp_all

@[simp] theorem weight_begin (c : Call) : c.begin.weight = 0 := by
  cases c <;> simp [Call.begin]

theorem weight_le_one (ph : Phase) : ph.weight ≤ 1 := by
  cases ph <;> simp [weight, isShared, isSpinning, isUnique, isizeMax]

theorem weight_nonneg {ph : Phase} (reader : ph.isUnique = false) : 0 ≤ ph.weight := by
  cases ph <;> simp_all

/-- What one instruction can do: the word moves by the change of the user's weight, a user
becomes a writer only on a free word, and a reader only on a word with no writer in it. -/
theorem step_spec {ph ph' : Phase} {l l' : Int} (valid : ph.Valid)
    (ran : ph.step l = some (ph', l')) :
    l' = l - ph.weight + ph'.weight ∧ ph'.Valid ∧
      (ph' = unique → ph ≠ unique ∧ l = 0) ∧ (ph' = shared → ph ≠ shared ∧ 0 ≤ l) := by
  cases ph with
  | idle =>
    simp only [step, Option.some.injEq, Prod.mk.injEq] at ran
    obtain ⟨rfl, rfl⟩ := ran
    simp
  | uniqueLoad cnt =>
    simp only [step] at ran
    split_ifs at ran <;> cases ran <;> simp
  | uniqueCas =>
    simp only [step] at ran
    split_ifs at ran with free <;> cases ran <;> simp [free]
  | tryUniqueLoad =>
    simp only [step] at ran
    split_ifs at ran <;> cases ran <;> simp
  | tryUniqueCas =>
    simp only [step] at ran
    split_ifs at ran with free <;> cases ran <;> simp [free]
  | sharedAdd =>
    simp only [step] at ran
    split_ifs at ran with nonneg <;> cases ran <;> simp [nonneg]
  | sharedLoad cnt =>
    simp only [step] at ran
    split_ifs at ran with waiting
    · cases ran
      simp
    · -- the spin ends on a positive word
      cases ran
      simp
      omega
  | trySharedLoad =>
    simp only [step] at ran
    split_ifs at ran with nonneg <;> cases ran <;> simp [nonneg]
  | trySharedCas cur =>
    simp only [Valid] at valid
    simp only [step] at ran
    split_ifs at ran with same nonneg
    · -- the exchange succeeds on the value read, which was not negative
      cases ran
      simp [same, valid]
    · cases ran
      simp [nonneg]
    · cases ran
      simp
  | shared =>
    simp only [step, Option.some.injEq, Prod.mk.injEq] at ran
    obtain ⟨rfl, rfl⟩ := ran
    simp
  | unique =>
    simp only [step, Option.some.injEq, Prod.mk.injEq] at ran
    obtain ⟨rfl, rfl⟩ := ran
    simp

end Phase

/-- The lock word and every user's phase. -/
structure State (τ : Type) where
  lock : Int
  phase : τ → Phase

/-- `RwSpinMutex::new`, no user in a call. -/
def State.init {τ : Type} : State τ := ⟨0, fun _ => .idle⟩

variable {τ : Type} [DecidableEq τ]

/-- One user starts a call, or executes one atomic instruction. -/
inductive Step : State τ → State τ → Prop
  | begin {s : State τ} (i : τ) (c : Call) (idle : s.phase i = .idle) :
      Step s ⟨s.lock, Function.update s.phase i c.begin⟩
  | atomic {s : State τ} {ph : Phase} {l : Int} (i : τ) (ran : (s.phase i).step s.lock = some (ph, l)) :
      Step s ⟨l, Function.update s.phase i ph⟩

/-- The states some interleaving reaches without a panic. -/
def Reachable (s : State τ) : Prop := Relation.ReflTransGen Step State.init s

/-! ## The word is the sum of the weights -/

section Sums

variable [Fintype τ]

/-- Changing one user's phase changes the sum of the weights by the change of its own. -/
theorem sum_weight_update (phase : τ → Phase) (i : τ) (ph : Phase) :
    ∑ j, (Function.update phase i ph j).weight = ∑ j, (phase j).weight - (phase i).weight + ph.weight := by
  have pointwise : (fun j => (Function.update phase i ph j).weight) =
      Function.update (fun j => (phase j).weight) i ph.weight := by
    funext j
    by_cases here : j = i
    · subst here
      simp
    · simp [Function.update_of_ne here]
  rw [pointwise, Finset.sum_update_of_mem (Finset.mem_univ i),
    Finset.sum_eq_add_sum_sdiff_singleton_of_mem (Finset.mem_univ i)]
  ring

/-- With at most `isize::MAX` users, a writer alone among the guards makes the word
negative. -/
theorem sum_weight_neg (bound : (Fintype.card τ : Int) ≤ isizeMax) {phase : τ → Phase} {i : τ}
    (writer : phase i = .unique) : ∑ j, (phase j).weight < 0 := by
  have others : ∑ j ∈ Finset.univ \ {i}, (phase j).weight ≤ Fintype.card τ - 1 := by
    have atMost := Finset.sum_le_card_nsmul (Finset.univ \ {i}) (fun j => (phase j).weight) 1
      fun j _ => (phase j).weight_le_one
    have card : ((Finset.univ \ {i}).card : Int) = Fintype.card τ - 1 := by
      rw [Finset.card_sdiff_of_subset (Finset.subset_univ _), Finset.card_singleton,
        Finset.card_univ]
      have := Fintype.card_pos_iff.mpr ⟨i⟩
      omega
    simpa [card] using atMost
  have writerWeight : Phase.unique.weight = -isizeMax := by simp
  rw [Finset.sum_eq_add_sum_sdiff_singleton_of_mem (Finset.mem_univ i), writer, writerWeight]
  omega

omit [DecidableEq τ] in
/-- With no writer, the word is at least any one user's weight. -/
theorem weight_le_sum {phase : τ → Phase} (noWriter : ∀ j, (phase j).isUnique = false) (i : τ) :
    (phase i).weight ≤ ∑ j, (phase j).weight :=
  Finset.single_le_sum (fun j _ => Phase.weight_nonneg (noWriter j)) (Finset.mem_univ i)

end Sums

/-! ## The invariant -/

/-- The word is the sum of the weights, a writer holds its guard alone, and every retry of
`try_shared_lock` holds a value it read as not negative. -/
structure State.Good [Fintype τ] (s : State τ) : Prop where
  lock : s.lock = ∑ i, (s.phase i).weight
  alone : ∀ i, s.phase i = .unique → ∀ j, j ≠ i → s.phase j ≠ .shared ∧ s.phase j ≠ .unique
  valid : ∀ i, (s.phase i).Valid

section Good

variable [Fintype τ] {s s' : State τ}

omit [DecidableEq τ] in
theorem good_init : (State.init : State τ).Good where
  lock := by simp [State.init]
  alone _ idle := by simp [State.init] at idle
  valid _ := trivial

/-- With at most `isize::MAX` users, a word that is not negative has no writer in it. -/
theorem State.Good.no_writer (bound : (Fintype.card τ : Int) ≤ isizeMax) (good : s.Good)
    (nonneg : 0 ≤ s.lock) (i : τ) : s.phase i ≠ .unique := by
  intro writer
  have negative := sum_weight_neg bound writer
  rw [← good.lock] at negative
  omega

/-- On a free word no reader holds a guard or spins. -/
theorem State.Good.quiet_of_free (bound : (Fintype.card τ : Int) ≤ isizeMax) (good : s.Good)
    (free : s.lock = 0) (j : τ) : (s.phase j).weight ≤ 0 := by
  have noWriter : ∀ k, (s.phase k).isUnique = false := fun k =>
    Phase.isUnique_eq_false (good.no_writer bound free.symm.le k)
  have atMost := weight_le_sum noWriter j
  rwa [← good.lock, free] at atMost

/-- Each step keeps the invariant. -/
theorem State.Good.step (bound : (Fintype.card τ : Int) ≤ isizeMax) (good : s.Good)
    (step : Step s s') : s'.Good := by
  cases step with
  | begin i c idle =>
    -- a call's first instruction weighs nothing and holds no guard
    refine ⟨?_, fun k writer j other => ?_, fun j => ?_⟩
    · rw [sum_weight_update, idle, Phase.weight_begin, ← good.lock]
      simp
    · dsimp only at writer ⊢
      by_cases here : k = i
      · subst here
        cases c <;> simp [Call.begin] at writer
      · rw [Function.update_of_ne here] at writer
        by_cases atI : j = i
        · subst atI
          simp only [Function.update_self]
          cases c <;> simp [Call.begin]
        · rw [Function.update_of_ne atI]
          exact good.alone k writer j other
    · dsimp only
      by_cases here : j = i
      · subst here
        cases c <;> simp [Call.begin]
      · rw [Function.update_of_ne here]
        exact good.valid j
  | @atomic ph l i ran =>
    obtain ⟨moved, valid', toWriter, toReader⟩ := (s.phase i).step_spec (good.valid i) ran
    refine ⟨?_, fun k writer j other => ?_, fun j => ?_⟩
    · rw [sum_weight_update, ← good.lock, moved]
    · dsimp only at writer ⊢
      by_cases here : k = i
      · -- `i` took the lock: the word was free, so no other user holds a guard
        subst here
        rw [Function.update_self] at writer
        obtain ⟨-, free⟩ := toWriter writer
        rw [Function.update_of_ne other]
        have light := good.quiet_of_free bound free j
        refine ⟨fun reader => ?_, good.no_writer bound free.symm.le j⟩
        rw [reader] at light
        simp at light
      · -- an older writer: `i` could take no guard beside it
        rw [Function.update_of_ne here] at writer
        by_cases atI : j = i
        · subst atI
          rw [Function.update_self]
          refine ⟨fun reader => ?_, fun taken => ?_⟩
          · exact good.no_writer bound (toReader reader).2 k writer
          · exact good.no_writer bound (toWriter taken).2.symm.le k writer
        · rw [Function.update_of_ne atI]
          exact good.alone k writer j other
    · dsimp only
      by_cases here : j = i
      · subst here
        rw [Function.update_self]
        exact valid'
      · rw [Function.update_of_ne here]
        exact good.valid j

theorem State.Good.of_reachable (bound : (Fintype.card τ : Int) ≤ isizeMax) {s : State τ}
    (reach : Reachable s) : s.Good := by
  induction reach with
  | refl => exact good_init
  | tail _ step ih => exact ih.step bound step

/-! ## What the invariant says -/

omit [DecidableEq τ] in
theorem sum_toNat (f : τ → Bool) :
    ∑ i, ((f i).toNat : Int) = ((Finset.univ.filter fun i => f i = true).card : Int) := by
  rw [Finset.card_filter]
  push_cast
  refine Finset.sum_congr rfl fun i _ => ?_
  cases f i <;> rfl

omit [DecidableEq τ] in
/-- The word in terms of the users: the readers holding a guard or spinning in it, less
`isize::MAX` for a writer. -/
theorem State.Good.lock_eq (good : s.Good) :
    s.lock = ((Finset.univ.filter fun i => (s.phase i).isShared).card : Int) +
      (Finset.univ.filter fun i => (s.phase i).isSpinning).card -
      (if ∃ i, s.phase i = .unique then isizeMax else 0) := by
  have split : ∀ ph : Phase, ph.weight =
      (ph.isShared.toNat : Int) + ph.isSpinning.toNat - isizeMax * ph.isUnique.toNat := by
    intro ph
    cases ph <;> simp
  have writers : ∑ i, ((s.phase i).isUnique.toNat : Int) =
      if ∃ i, s.phase i = .unique then 1 else 0 := by
    split_ifs with some
    · -- the writer is alone
      obtain ⟨k, writer⟩ := some
      rw [Finset.sum_eq_single k]
      · simp [writer]
      · intro j _ other
        rw [Phase.isUnique_eq_false (good.alone k writer j other).2]
        rfl
      · simp
    · have none := not_exists.mp some
      refine Finset.sum_eq_zero fun i _ => ?_
      rw [Phase.isUnique_eq_false (none i)]
      rfl
  rw [good.lock, Finset.sum_congr rfl fun i _ => split (s.phase i), Finset.sum_sub_distrib,
    Finset.sum_add_distrib, ← Finset.mul_sum, writers, sum_toNat, sum_toNat]
  split_ifs <;> ring

omit [DecidableEq τ] in
/-- With at most `isize::MAX` users the word never leaves the range of an `isize`. -/
theorem State.Good.lock_mem (bound : (Fintype.card τ : Int) ≤ isizeMax) (good : s.Good) :
    -isizeMax ≤ s.lock ∧ s.lock ≤ isizeMax := by
  constructor
  · rw [good.lock_eq]
    split_ifs <;> omega
  · have atMost := Finset.sum_le_card_nsmul Finset.univ (fun j => (s.phase j).weight) 1
      fun j _ => (s.phase j).weight_le_one
    simp only [Finset.card_univ, nsmul_eq_mul, mul_one] at atMost
    rw [good.lock]
    omega

omit [DecidableEq τ] in
/-- With no writer, a spinning reader's next load sees a positive word and takes its
guard. -/
theorem State.Good.spin_ends (good : s.Good) (noWriter : ∀ i, s.phase i ≠ .unique) {i : τ}
    {cnt : Nat} (spinning : s.phase i = .sharedLoad cnt) :
    (s.phase i).step s.lock = some (.shared, s.lock) := by
  have atLeast := weight_le_sum (fun k => Phase.isUnique_eq_false (noWriter k)) i
  rw [spinning, ← good.lock] at atLeast
  have positive : ¬s.lock ≤ 0 := by
    simp at atLeast
    omega
  rw [spinning]
  simp [Phase.step, positive]

/-- While a reader spins the word is not free. -/
theorem State.Good.lock_ne_zero (bound : (Fintype.card τ : Int) ≤ isizeMax) (good : s.Good)
    {i : τ} {cnt : Nat} (spinning : s.phase i = .sharedLoad cnt) : s.lock ≠ 0 := by
  intro free
  have light := good.quiet_of_free bound free i
  rw [spinning] at light
  simp at light

end Good

/-! ## Exclusion, and where it ends -/

/-- With at most `isize::MAX` users, over every interleaving: a unique guard is live alone;
the word is the number of shared guards and spinning readers, less `isize::MAX` while a
unique guard is live, and stays an `isize`; with no writer every spinning reader takes its
guard at its next load, and while a reader spins no writer's exchange succeeds. -/
theorem rwSpinMutex_exclusive [Fintype τ] (bound : (Fintype.card τ : Int) ≤ isizeMax)
    {s : State τ} (reach : Reachable s) :
    (∀ i, s.phase i = .unique → ∀ j, j ≠ i → s.phase j ≠ .shared ∧ s.phase j ≠ .unique) ∧
    s.lock = ((Finset.univ.filter fun i => (s.phase i).isShared).card : Int) +
        (Finset.univ.filter fun i => (s.phase i).isSpinning).card -
        (if ∃ i, s.phase i = .unique then isizeMax else 0) ∧
    (-isizeMax ≤ s.lock ∧ s.lock ≤ isizeMax) ∧
    ((∀ i, s.phase i ≠ .unique) → ∀ i cnt, s.phase i = .sharedLoad cnt →
        (s.phase i).step s.lock = some (.shared, s.lock)) ∧
    ((∃ i cnt, s.phase i = .sharedLoad cnt) →
        Phase.uniqueCas.step s.lock = some (.uniqueLoad 0, s.lock) ∧
          Phase.tryUniqueCas.step s.lock = some (.idle, s.lock)) := by
  have good := State.Good.of_reachable bound reach
  refine ⟨good.alone, good.lock_eq, good.lock_mem bound,
    fun noWriter i cnt spinning => good.spin_ends noWriter spinning, ?_⟩
  rintro ⟨i, cnt, spinning⟩
  have busy := good.lock_ne_zero bound spinning
  exact ⟨by simp [Phase.step, busy], by simp [Phase.step, busy]⟩

/-- A writer holds the lock and a reader spins over it: a second writer's exchange
fails. -/
theorem rwSpinMutex_reader_over_writer :
    ∃ s : State (Fin 2), Reachable s ∧ s.phase 0 = .unique ∧ s.phase 1 = .sharedLoad 0 ∧
      Phase.uniqueCas.step s.lock = some (.uniqueLoad 0, s.lock) := by
  have run : Reachable (τ := Fin 2) _ :=
    ((((Relation.ReflTransGen.single (Step.begin 0 .uniqueLock rfl)).tail
      (Step.atomic 0 rfl)).tail (Step.atomic 0 rfl)).tail (Step.begin 1 .sharedLock rfl)).tail
      (Step.atomic 1 rfl)
  exact ⟨_, run, rfl, rfl,
    ((rwSpinMutex_exclusive (by norm_num [isizeMax]) run).2.2.2.2 ⟨1, 0, rfl⟩).1⟩

/-- Among `2^63 + 1` users: the writer `0` holds the lock and the users `1` to `k` spin
over it. -/
def overWriter (k : Nat) : State (Fin (2 ^ 63 + 1)) :=
  ⟨-isizeMax + k, fun j => if j.val = 0 then .unique else if j.val ≤ k then .sharedLoad 0 else .idle⟩

/-- The readers come in one by one, each adding `1` to the word through its `fetch_add`. -/
theorem reachable_overWriter : ∀ k, k ≤ 2 ^ 63 - 1 → Reachable (overWriter k)
  | 0, _ => by
    have run : Reachable (τ := Fin (2 ^ 63 + 1)) _ :=
      ((Relation.ReflTransGen.single (Step.begin 0 .uniqueLock rfl)).tail
        (Step.atomic 0 rfl)).tail (Step.atomic 0 rfl)
    convert run using 1
    simp only [overWriter, State.init, Nat.cast_zero, add_zero, Function.update_idem]
    congr 1
    funext j
    by_cases first : j = 0
    · subst first
      simp
    · have positive : j.val ≠ 0 := fun zero => first (Fin.ext zero)
      simp [Function.update_of_ne first, positive]
  | k + 1, small => by
    have before := reachable_overWriter k (by omega)
    -- the next reader is idle, and its increment leaves the word negative
    let reader : Fin (2 ^ 63 + 1) := ⟨k + 1, by omega⟩
    have idle : (overWriter k).phase reader = .idle := by
      simp [overWriter, reader]
    have added : Phase.sharedAdd.step (overWriter k).lock =
        some (.sharedLoad 0, (overWriter k).lock + 1) := by
      have negative : ¬0 ≤ (overWriter k).lock := by
        simp only [overWriter, isizeMax]
        omega
      simp [Phase.step, negative]
    have run : Reachable _ := (before.tail (Step.begin reader .sharedLock idle)).tail
      (Step.atomic (s := ⟨_, Function.update (overWriter k).phase reader Call.sharedLock.begin⟩)
        reader (by simpa [Call.begin] using added))
    convert run using 1
    simp only [overWriter, Function.update_idem]
    congr 1
    · push_cast
      ring
    · funext j
      by_cases here : j = reader
      · subst here
        simp [reader]
      · have other : j.val ≠ k + 1 := fun same => here (Fin.ext same)
        simp only [Function.update_of_ne here]
        split_ifs <;> first | rfl | omega

/-- With `isize::MAX + 2` users the counter arithmetic gives way: `isize::MAX` readers spin
over a writer, their increments bring the word back to `0`, and a second writer takes the
lock beside the first. -/
theorem rwSpinMutex_two_writers :
    ∃ s : State (Fin (2 ^ 63 + 1)), Reachable s ∧ s.phase 0 = .unique ∧
      s.phase (Fin.last _) = .unique := by
  have full := reachable_overWriter (2 ^ 63 - 1) le_rfl
  have free : (overWriter (2 ^ 63 - 1)).lock = 0 := by
    simp [overWriter, isizeMax]
  have idle : (overWriter (2 ^ 63 - 1)).phase (Fin.last _) = .idle := by
    simp [overWriter, Fin.last]
  have loaded : (Phase.uniqueLoad 0).step (overWriter (2 ^ 63 - 1)).lock =
      some (.uniqueCas, (overWriter (2 ^ 63 - 1)).lock) := by
    rw [free]
    rfl
  have taken : Phase.uniqueCas.step (overWriter (2 ^ 63 - 1)).lock = some (.unique, -isizeMax) := by
    rw [free]
    rfl
  have run : Reachable _ := ((full.tail (Step.begin (Fin.last _) .uniqueLock idle)).tail
    (Step.atomic (Fin.last _) (by simp only [Function.update_self, Call.begin]; exact loaded))).tail
    (Step.atomic (Fin.last _) (by simp only [Function.update_self]; exact taken))
  -- the first writer is still there
  refine ⟨_, run, ?_, by simp⟩
  simp [overWriter]

end RwSpinMutex

end FtlOs
