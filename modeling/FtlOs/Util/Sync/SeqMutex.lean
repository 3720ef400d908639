import FtlOs.Library.Token

/-!
# The sequence lock

`SeqMutex` of `ftl-util/src/sync/seq_mutex.rs` guards its data with one wrapping `usize`,
`seq`, even while the lock is free: a writer takes it with a `compare_exchange(seq, seq + 1)`
and its guard's drop stores `seq + 1` again, and a reader takes no lock but reads the data
between two loads of an even `seq` and starts over when they differ.  The holder of the lock is
unique and `seq` is odd exactly while there is one (`seqMutex_exclusive`), and a reader whose
second load finds `seq` unchanged read every cell as it is at that load, unless `seq` went all
the way round its `2^64` values meanwhile (`seqMutex_read_consistent`).
-/

namespace FtlOs

namespace SeqMutex

/-- `0x10000000`, the odd values after which `wait_unlock` panics with
`"Mutex: deadlock detected!"`. -/
def deadLock : Nat := 0x10000000

/-- `seq` is a `usize`: it wraps at `2^64`. -/
def usizeSize : Nat := 2 ^ 64

/-- `seq.wrapping_add(1)`. -/
def wrappingSucc (seq : Nat) : Nat := (seq + 1) % usizeSize

/-- Where one user is: the atomic instruction it executes next, or the guard it holds.  `retry`
tells `read` from `try_read` and `write_lock` from `try_write_lock`. -/
inductive Phase (α : Type) where
  | idle
  /-- `read` or `try_read`, the first load of `seq`. -/
  | readLoad (retry : Bool)
  /-- `wait_unlock` in `read`: its load of `seq` after `tries` odd values. -/
  | readSpin (tries : Nat)
  /-- the closure reading the data: the even `seq` it goes on with, the ghost `since`, and the
  cells read so far. -/
  | reading (retry : Bool) (seq since : Nat) (snap : List α)
  /-- the load of `new_seq` after the closure. -/
  | checking (retry : Bool) (seq since : Nat) (snap : List α)
  /-- `write_lock` or `try_write_lock`, the first load of `seq`. -/
  | writeLoad (retry : Bool)
  /-- `wait_unlock` in `write_lock`: its load of `seq` after `tries` odd values. -/
  | writeSpin (tries : Nat)
  /-- the `compare_exchange(seq, seq.wrapping_add(1))`. -/
  | writeCas (retry : Bool) (seq : Nat)
  /-- a live `SeqMutexGuard`. -/
  | held
  /-- the guard's drop: the store of `seq.wrapping_add(1)` with the `seq` it loaded. -/
  | unlockStore (seq : Nat)
  deriving DecidableEq, Repr

/-- The four lock functions. -/
inductive Call where
  | read
  | tryRead
  | writeLock
  | tryWriteLock
  deriving DecidableEq, Repr

variable {α : Type}

/-- The first instruction of a call. -/
def Call.begin : Call → Phase α
  | .read => .readLoad true
  | .tryRead => .readLoad false
  | .writeLock => .writeLoad true
  | .tryWriteLock => .writeLoad false

/-- `wait_unlock(seq)` after `tries` odd values: go on with an even `seq`, panic at the
`0x10000000`-th odd one, and load again otherwise. -/
def waitUnlock (tries seq : Nat) (next : Nat → Phase α) (spin : Nat → Phase α) :
    Option (Phase α) :=
  if seq % 2 = 0 then some (next seq)
  else if tries + 1 = deadLock then none else some (spin (tries + 1))

namespace Phase

/-- One atomic instruction of a user in phase `ph` on the data `data`, the word `seq` and the
ghost `ticks`: the phase, word and ghost after it; `none` is the panic of `wait_unlock`.  A
failed `try_read` or `try_write_lock` returns `None` and the user is idle again, as is a reader
whose `seq` stayed.  An idle user executes nothing and changes nothing. -/
def step {m : Nat} (data : Fin m → α) : Phase α → Nat → Nat → Option (Phase α × Nat × Nat)
  | idle, seq, ticks => some (idle, seq, ticks)
  | readLoad true, seq, ticks =>
    (waitUnlock 0 seq (fun seq => reading true seq ticks []) readSpin).map (·, seq, ticks)
  | readLoad false, seq, ticks =>
    if seq % 2 ≠ 0 then some (idle, seq, ticks) else some (reading false seq ticks [], seq, ticks)
  | readSpin tries, seq, ticks =>
    (waitUnlock tries seq (fun seq => reading true seq ticks []) readSpin).map (·, seq, ticks)
  -- the closure reads the next cell, until it has read them all
  | reading retry seen since snap, seq, ticks =>
    if h : snap.length < m then
      some (reading retry seen since (snap ++ [data ⟨snap.length, h⟩]), seq, ticks)
    else some (checking retry seen since snap, seq, ticks)
  -- `read` starts over from the `new_seq` it loaded, without loading again
  | checking retry seen _ _, seq, ticks =>
    if seen = seq then some (idle, seq, ticks)
    else if retry then
      (waitUnlock 0 seq (fun seq => reading true seq ticks []) readSpin).map (·, seq, ticks)
    else some (idle, seq, ticks)
  | writeLoad true, seq, ticks => (waitUnlock 0 seq (writeCas true) writeSpin).map (·, seq, ticks)
  | writeLoad false, seq, ticks =>
    if seq % 2 ≠ 0 then some (idle, seq, ticks) else some (writeCas false seq, seq, ticks)
  | writeSpin tries, seq, ticks =>
    (waitUnlock tries seq (writeCas true) writeSpin).map (·, seq, ticks)
  -- a failed exchange hands `write_lock` the word it found
  | writeCas retry seen, seq, ticks =>
    if seq = seen then some (held, wrappingSucc seen, ticks + 1)
    else if retry then (waitUnlock 0 seq (writeCas true) writeSpin).map (·, seq, ticks)
    else some (idle, seq, ticks)
  | held, seq, ticks => some (unlockStore seq, seq, ticks)
  | unlockStore seen, _, ticks => some (idle, wrappingSucc seen, ticks + 1)

/-- The user holds the lock: from its exchange to its drop's store. -/
def holds : Phase α → Bool
  | held | unlockStore _ => true
  | _ => false

/-- An exchange is only tried with an even `seq`. -/
def CasEven : Phase α → Prop
  | writeCas _ seq => seq % 2 = 0
  | _ => True

/-- What a reader's `seq` says: it is the ghost `since` as a word, `since` is even and no later
than `ticks`. -/
structure Seen (ticks seq since : Nat) : Prop where
  le : since ≤ ticks
  word : seq = since % usizeSize
  even : since % 2 = 0

/-- What a reader's cells are worth: as long as `seq` has not moved since the reader saw it
(`ticks = since`), they are the first cells of the data, and all of them once it checks. -/
def Fresh {m : Nat} (ticks : Nat) (data : Fin m → α) : Phase α → Prop
  | reading _ seq since snap =>
    Seen ticks seq since ∧ snap.length ≤ m ∧
      (ticks = since → snap = (List.ofFn data).take snap.length)
  | checking _ seq since snap =>
    Seen ticks seq since ∧ (ticks = since → snap = List.ofFn data)
  | _ => True

/-! ### What one instruction does -/

theorem waitUnlock_cases {tries seq : Nat} {next spin : Nat → Phase α} {ph : Phase α}
    (ran : waitUnlock tries seq next spin = some ph) :
    (seq % 2 = 0 ∧ ph = next seq) ∨ ph = spin (tries + 1) := by
  unfold waitUnlock at ran
  split_ifs at ran with even
  · exact .inl ⟨even, (Option.some.inj ran).symm⟩
  · exact .inr (Option.some.inj ran).symm

/-- What one instruction does to the lock: the exchange of an even `seq` takes it, the drop
loads `seq` and then gives it back, and every other instruction leaves the word alone, holds
no lock and goes on to an exchange only with an even `seq`. -/
inductive Move (seq ticks : Nat) : Phase α → Phase α → Nat → Nat → Prop
  | quiet {ph ph' : Phase α} (out : ph.holds = false) (out' : ph'.holds = false)
      (even : ph'.CasEven) : Move seq ticks ph ph' seq ticks
  | lock (retry : Bool) : Move seq ticks (writeCas retry seq) held (wrappingSucc seq) (ticks + 1)
  | drop : Move seq ticks held (unlockStore seq) seq ticks
  | unlock (seen : Nat) : Move seq ticks (unlockStore seen) idle (wrappingSucc seen) (ticks + 1)

/-- A wait of a reader moves quietly. -/
theorem Move.readWait {seq ticks tries seen : Nat} {ph ph' : Phase α} (out : ph.holds = false)
    (ran : (waitUnlock tries seen (fun seq => reading true seq ticks []) readSpin).map
      (·, seq, ticks) = some (ph', seq, ticks)) :
    Move seq ticks ph ph' seq ticks := by
  obtain ⟨ph'', waited, same⟩ := Option.map_eq_some_iff.mp ran
  cases same
  rcases waitUnlock_cases waited with ⟨-, rfl⟩ | rfl <;> exact .quiet out rfl trivial

/-- A wait of a writer moves quietly: it goes on to an exchange with the even `seq` it saw. -/
theorem Move.writeWait {seq ticks tries seen : Nat} {ph ph' : Phase α} (out : ph.holds = false)
    (ran : (waitUnlock tries seen (writeCas true) writeSpin).map (·, seq, ticks) =
      some (ph', seq, ticks)) :
    Move seq ticks ph ph' seq ticks := by
  obtain ⟨ph'', waited, same⟩ := Option.map_eq_some_iff.mp ran
  cases same
  rcases waitUnlock_cases waited with ⟨even, rfl⟩ | rfl
  · exact .quiet out rfl even
  · exact .quiet out rfl trivial

theorem step_moves {m : Nat} {data : Fin m → α} {ph ph' : Phase α} {seq ticks seq' ticks' : Nat}
    (ran : ph.step data seq ticks = some (ph', seq', ticks')) : Move seq ticks ph ph' seq' ticks' := by
  cases ph with
  | idle =>
    cases ran
    exact .quiet rfl rfl trivial
  | readLoad retry =>
    cases retry with
    | true =>
      obtain ⟨ph'', -, same⟩ := Option.map_eq_some_iff.mp ran
      cases same
      exact .readWait rfl ran
    | false =>
      simp only [step] at ran
      split_ifs at ran <;> cases ran <;> exact .quiet rfl rfl trivial
  | readSpin tries =>
    obtain ⟨ph'', -, same⟩ := Option.map_eq_some_iff.mp ran
    cases same
    exact .readWait rfl ran
  | reading retry seen since snap =>
    simp only [step] at ran
    split_ifs at ran <;> cases ran <;> exact .quiet rfl rfl trivial
  | checking retry seen since snap =>
    simp only [step] at ran
    split_ifs at ran
    · cases ran
      exact .quiet rfl rfl trivial
    · obtain ⟨ph'', -, same⟩ := Option.map_eq_some_iff.mp ran
      cases same
      exact .readWait rfl ran
    · cases ran
      exact .quiet rfl rfl trivial
  | writeLoad retry =>
    cases retry with
    | true =>
      obtain ⟨ph'', -, same⟩ := Option.map_eq_some_iff.mp ran
      cases same
      exact .writeWait rfl ran
    | false =>
      simp only [step] at ran
      split_ifs at ran with odd
      · cases ran
        exact .quiet rfl rfl trivial
      · cases ran
        exact .quiet rfl rfl (not_not.mp odd)
  | writeSpin tries =>
    obtain ⟨ph'', -, same⟩ := Option.map_eq_some_iff.mp ran
    cases same
    exact .writeWait rfl ran
  | writeCas retry seen =>
    simp only [step] at ran
    split_ifs at ran with same
    · cases ran
      subst same
      exact .lock retry
    · obtain ⟨ph'', -, same⟩ := Option.map_eq_some_iff.mp ran
      cases same
      exact .writeWait rfl ran
    · cases ran
      exact .quiet rfl rfl trivial
  | held =>
    cases ran
    exact .drop
  | unlockStore seen =>
    cases ran
    exact .unlock seen

/-! ### What a reader's cells are worth -/

section Fresh

variable {m : Nat} {data : Fin m → α} {ph ph' : Phase α} {ticks seq since : Nat}

/-- `seq` is the ghost as a word, and `2^64` is even: they agree on their parity. -/
theorem parity_word (word : seq = ticks % usizeSize) : seq % 2 = ticks % 2 := by
  rw [word, Nat.mod_mod_of_dvd ticks (by decide : 2 ∣ usizeSize)]

theorem Seen.tick (seen : Seen ticks seq since) : Seen (ticks + 1) seq since :=
  ⟨Nat.le_succ_of_le seen.le, seen.word, seen.even⟩

/-- A reader's cells keep their worth when `seq` moves on: from then on they promise nothing. -/
theorem Fresh.tick (fresh : ph.Fresh ticks data) : ph.Fresh (ticks + 1) data := by
  cases ph
  case reading retry seq since snap =>
    obtain ⟨seen, short, -⟩ := fresh
    exact ⟨seen.tick, short, fun moved => absurd seen.le (by omega)⟩
  case checking retry seq since snap =>
    obtain ⟨seen, -⟩ := fresh
    exact ⟨seen.tick, fun moved => absurd seen.le (by omega)⟩
  all_goals trivial

/-- A reader's cells keep their worth when a writer writes a cell: `seq` is odd then, and a
reader's `since` even. -/
theorem Fresh.write (fresh : ph.Fresh ticks data) (odd : ticks % 2 = 1) (c : Fin m) (v : α) :
    ph.Fresh ticks (Function.update data c v) := by
  cases ph
  case reading retry seq since snap =>
    obtain ⟨seen, short, -⟩ := fresh
    exact ⟨seen, short, fun same => absurd seen.even (by omega)⟩
  case checking retry seq since snap =>
    obtain ⟨seen, -⟩ := fresh
    exact ⟨seen, fun same => absurd seen.even (by omega)⟩
  all_goals trivial

/-- A reader that loads an even `seq` starts with no cells, recording the ghost of the
moment. -/
theorem fresh_load (word : seq = ticks % usizeSize) (even : seq % 2 = 0) (retry : Bool) :
    (reading retry seq ticks [] : Phase α).Fresh ticks data :=
  ⟨⟨le_rfl, word, by rw [← parity_word word]; exact even⟩, Nat.zero_le m, fun _ => rfl⟩

theorem fresh_readWait {tries : Nat} (word : seq = ticks % usizeSize)
    (ran : (waitUnlock tries seq (fun seq => reading true seq ticks []) readSpin).map
      (·, seq, ticks) = some (ph', seq, ticks)) :
    ph'.Fresh ticks data := by
  obtain ⟨ph'', waited, same⟩ := Option.map_eq_some_iff.mp ran
  cases same
  rcases waitUnlock_cases waited with ⟨even, rfl⟩ | rfl
  · exact fresh_load word even true
  · trivial

/-- A writer's wait goes on to no reader's phase. -/
theorem fresh_writeWait {tries : Nat}
    (ran : (waitUnlock tries seq (writeCas true) writeSpin).map (·, seq, ticks) =
      some (ph', seq, ticks)) :
    ph'.Fresh ticks data := by
  obtain ⟨ph'', waited, same⟩ := Option.map_eq_some_iff.mp ran
  cases same
  rcases waitUnlock_cases waited with ⟨-, rfl⟩ | rfl <;> trivial

/-- Reading the next cell of the data: it extends the first cells by the next one. -/
theorem take_ofFn_succ {snap : List α} (h : snap.length < m)
    (front : snap = (List.ofFn data).take snap.length) :
    snap ++ [data ⟨snap.length, h⟩] = (List.ofFn data).take (snap ++ [data ⟨snap.length, h⟩]).length := by
  rw [List.length_append, List.length_singleton, List.take_add_one, ← front]
  simp [h]

/-- The moving reader's cells keep their worth: a load starts afresh, and a read takes the
next cell from the data. -/
theorem fresh_step {seq' ticks' : Nat} (fresh : ph.Fresh ticks data)
    (word : seq = ticks % usizeSize) (ran : ph.step data seq ticks = some (ph', seq', ticks')) :
    ph'.Fresh ticks' data := by
  cases ph
  case readLoad retry =>
    cases retry
    · simp only [step] at ran
      split_ifs at ran with odd
      · cases ran
        trivial
      · cases ran
        exact fresh_load word (not_not.mp odd) false
    · obtain ⟨ph'', -, same⟩ := Option.map_eq_some_iff.mp ran
      cases same
      exact fresh_readWait word ran
  case readSpin tries =>
    obtain ⟨ph'', -, same⟩ := Option.map_eq_some_iff.mp ran
    cases same
    exact fresh_readWait word ran
  case reading retry seen since snap =>
    obtain ⟨seenSince, short, front⟩ := fresh
    simp only [step] at ran
    split_ifs at ran with more
    · cases ran
      refine ⟨seenSince, by simpa using more, fun same => take_ofFn_succ more (front same)⟩
    · -- every cell is read: the first cells are all of them
      cases ran
      have all : snap.length = m := by omega
      refine ⟨seenSince, fun same => ?_⟩
      rw [front same, List.take_of_length_le (by simp [all])]
  case checking retry seen since snap =>
    simp only [step] at ran
    split_ifs at ran
    · cases ran
      trivial
    · obtain ⟨ph'', -, same⟩ := Option.map_eq_some_iff.mp ran
      cases same
      exact fresh_readWait word ran
    · cases ran
      trivial
  case writeLoad retry =>
    cases retry
    · simp only [step] at ran
      split_ifs at ran <;> cases ran <;> trivial
    · obtain ⟨ph'', -, same⟩ := Option.map_eq_some_iff.mp ran
      cases same
      exact fresh_writeWait ran
  case writeSpin tries =>
    obtain ⟨ph'', -, same⟩ := Option.map_eq_some_iff.mp ran
    cases same
    exact fresh_writeWait ran
  case writeCas retry seen =>
    simp only [step] at ran
    split_ifs at ran
    · cases ran
      trivial
    · obtain ⟨ph'', -, same⟩ := Option.map_eq_some_iff.mp ran
      cases same
      exact fresh_writeWait ran
    · cases ran
      trivial
  all_goals
    cases ran
    trivial

end Fresh

end Phase

/-- The word, its ghost, the data and every user's phase. -/
@[ext] structure State (τ α : Type) (m : Nat) where
  seq : Nat
  /-- ghost: the increments of `seq` so far. -/
  ticks : Nat
  data : Fin m → α
  phase : τ → Phase α

/-- `SeqMutex::new(user_data)`: `seq` is `0` and no user is in a call. -/
def State.init {τ : Type} {m : Nat} (userData : Fin m → α) : State τ α m :=
  ⟨0, 0, userData, fun _ => .idle⟩

variable {τ : Type} [DecidableEq τ] {m : Nat}

/-- One user starts a call, executes one atomic instruction, or writes a cell of the data
while it holds the guard, in any interleaving.  A reader's closure is arbitrary, so the model
lets it read the data cell after cell, each read one step, and what it returns is a function
of these possibly torn cells.  The ghost `ticks` counts the increments of `seq`; nothing of
the lock reads it.  `S::before_lock` and `S::after_unlock` only switch interrupts and are left
out. -/
inductive Step : State τ α m → State τ α m → Prop
  | begin {s : State τ α m} (i : τ) (c : Call) (idle : s.phase i = .idle) :
      Step s ⟨s.seq, s.ticks, s.data, Function.update s.phase i c.begin⟩
  | atomic {s : State τ α m} {ph : Phase α} {seq ticks : Nat} (i : τ)
      (ran : (s.phase i).step s.data s.seq s.ticks = some (ph, seq, ticks)) :
      Step s ⟨seq, ticks, s.data, Function.update s.phase i ph⟩
  | write {s : State τ α m} (i : τ) (holding : s.phase i = .held) (c : Fin m) (v : α) :
      Step s ⟨s.seq, s.ticks, Function.update s.data c v, s.phase⟩

/-- The states some interleaving reaches from `SeqMutex::new(userData)` without a panic. -/
def Reachable (userData : Fin m → α) (s : State τ α m) : Prop :=
  Relation.ReflTransGen Step (State.init userData) s

/-- A user about to store in its drop stores the successor of the word as it is. -/
def Phase.Unlocks (seq : Nat) : Phase α → Prop
  | .unlockStore seen => seen = seq
  | _ => True

theorem Phase.unlocks_of_out {ph : Phase α} (seq : Nat) (out : ph.holds = false) :
    ph.Unlocks seq := by
  cases ph
  case unlockStore seen => cases out
  all_goals trivial

/-- A property of every user's phase survives a move of one user to a phase with it. -/
theorem forall_update {P : Phase α → Prop} {phase : τ → Phase α} {i : τ} {ph : Phase α}
    (moved : P ph) (others : ∀ j, P (phase j)) (j : τ) : P (Function.update phase i ph j) :=
  (Function.forall_update_iff phase fun _ ph => P ph).mpr ⟨moved, fun j _ => others j⟩ j

/-- The word after an increment is the ghost after it, as a word. -/
theorem word_succ {seq ticks : Nat} (word : seq = ticks % usizeSize) :
    wrappingSucc seq = (ticks + 1) % usizeSize := by
  rw [wrappingSucc, word, Nat.add_mod, Nat.mod_mod, ← Nat.add_mod]

/-! ## The invariant -/

/-- The word is the ghost as a word, the lock has at most one holder and the ghost is odd
exactly while it has one, a drop stores the successor of the word, exchanges are tried with even
words, and readers' cells are worth what `Phase.Fresh` says. -/
structure State.Good (s : State τ α m) : Prop where
  word : s.seq = s.ticks % usizeSize
  holder : Token.Records (s.ticks % 2 == 1) Phase.holds s.phase
  unlocking : ∀ i, (s.phase i).Unlocks s.seq
  casEven : ∀ i, (s.phase i).CasEven
  fresh : ∀ i, (s.phase i).Fresh s.ticks s.data

omit [DecidableEq τ] in
theorem good_init (userData : Fin m → α) : (State.init userData : State τ α m).Good where
  word := rfl
  holder := ⟨by simp [State.init, Phase.holds], fun _ _ holding => by cases holding⟩
  unlocking _ := trivial
  casEven _ := trivial
  fresh _ := trivial

section Good

variable {s : State τ α m}

omit [DecidableEq τ] in
/-- While somebody holds the lock the ghost is odd. -/
theorem State.Good.odd_of_holds (good : s.Good) {i : τ} (holding : (s.phase i).holds = true) :
    s.ticks % 2 = 1 := by
  simpa using good.holder.flag_eq_true holding

theorem State.Good.begin (good : s.Good) {i : τ} (c : Call) (idle : s.phase i = .idle) :
    State.Good ⟨s.seq, s.ticks, s.data, Function.update s.phase i c.begin⟩ where
  word := good.word
  holder := good.holder.keep (by rw [idle]; cases c <;> rfl)
  unlocking := forall_update (by cases c <;> trivial) good.unlocking
  casEven := forall_update (by cases c <;> trivial) good.casEven
  fresh := forall_update (by cases c <;> trivial) good.fresh

omit [DecidableEq τ] in
/-- A writer writes a cell while it holds the lock: the readers' cells keep their worth. -/
theorem State.Good.write (good : s.Good) {i : τ} (holding : s.phase i = .held) (c : Fin m)
    (v : α) : State.Good ⟨s.seq, s.ticks, Function.update s.data c v, s.phase⟩ where
  word := good.word
  holder := good.holder
  unlocking := good.unlocking
  casEven := good.casEven
  fresh j := (good.fresh j).write (good.odd_of_holds (by rw [holding]; rfl)) c v

theorem State.Good.atomic (good : s.Good) {i : τ} {ph : Phase α} {seq ticks : Nat}
    (ran : (s.phase i).step s.data s.seq s.ticks = some (ph, seq, ticks)) :
    State.Good ⟨seq, ticks, s.data, Function.update s.phase i ph⟩ := by
  have fresh := Phase.fresh_step (good.fresh i) good.word ran
  have moves := Phase.step_moves ran
  generalize was : s.phase i = old at moves
  cases moves with
  | quiet out out' even =>
    exact ⟨good.word, good.holder.keep (by rw [out', was, out]),
      forall_update (Phase.unlocks_of_out _ out') good.unlocking, forall_update even good.casEven,
      forall_update fresh good.fresh⟩
  | lock retry =>
    -- the exchange of an even word: nobody held the lock, and the taker holds it now
    have even : s.ticks % 2 = 0 := by
      have casEven := good.casEven i
      rw [was] at casEven
      rw [← Phase.parity_word good.word]
      exact casEven
    have clear : (s.ticks % 2 == 1) = false := by simp [even]
    have set : ((s.ticks + 1) % 2 == 1) = true := by simp [Nat.add_mod, even]
    exact ⟨word_succ good.word, set ▸ good.holder.take clear rfl,
      forall_update trivial fun j => Phase.unlocks_of_out _ (good.holder.not_holds clear j),
      forall_update trivial good.casEven, forall_update trivial fun j => (good.fresh j).tick⟩
  | drop =>
    exact ⟨good.word, good.holder.keep (by rw [was]; rfl),
      forall_update (show (Phase.unlockStore s.seq : Phase α).Unlocks s.seq from rfl)
        good.unlocking, forall_update trivial good.casEven, forall_update trivial good.fresh⟩
  | unlock seen =>
    -- the holder stores the successor of the word: nobody holds the lock after it
    have stored : seen = s.seq := by
      have unlocks := good.unlocking i
      rwa [was] at unlocks
    have holding : (s.phase i).holds = true := by rw [was]; rfl
    have odd := good.odd_of_holds holding
    have clear : ((s.ticks + 1) % 2 == 1) = false := by simp [Nat.add_mod, odd]
    refine ⟨stored ▸ word_succ good.word, clear ▸ good.holder.give holding rfl, ?_,
      forall_update trivial good.casEven, forall_update trivial fun j => (good.fresh j).tick⟩
    refine (Function.forall_update_iff _ fun _ (ph : Phase α) => ph.Unlocks _).mpr
      ⟨trivial, fun j other => Phase.unlocks_of_out _ ?_⟩
    -- only the holder held the lock
    cases holdsJ : (s.phase j).holds
    · rfl
    · exact absurd (good.holder.one j i holdsJ holding) other

theorem State.Good.step {s' : State τ α m} (good : s.Good) (step : Step s s') : s'.Good := by
  cases step with
  | begin i c idle => exact good.begin c idle
  | atomic i ran => exact good.atomic ran
  | write i holding c v => exact good.write holding c v

theorem good_of_reachable {userData : Fin m → α} (reach : Reachable userData s) : s.Good := by
  induction reach with
  | refl => exact good_init userData
  | tail _ step good => exact good.step step

end Good

/-! ## Exclusion and consistent reads -/

section Results

variable {userData : Fin m → α} {s : State τ α m}

/-- At most one user holds the lock, and `seq` is odd exactly while one does: so the debug
assert of the guard's drop, that the `seq` it loads is odd, always holds. -/
theorem seqMutex_exclusive (reach : Reachable userData s) :
    (∀ i j, (s.phase i).holds → (s.phase j).holds → i = j) ∧
      (s.seq % 2 = 1 ↔ ∃ i, (s.phase i).holds) := by
  have good := good_of_reachable reach
  refine ⟨good.holder.one, ?_⟩
  rw [Phase.parity_word good.word, ← good.holder.set_iff]
  simp

/-- User `0` takes the lock with `write_lock`: it holds it, and `seq` is odd. -/
theorem seqMutex_exclusive_locked :
    ∃ s : State (Fin 2) Nat 1, Reachable (fun _ => 0) s ∧ s.phase 0 = .held ∧
      (s.seq % 2 = 1 ↔ ∃ i, (s.phase i).holds) := by
  have reach : Reachable (fun _ : Fin 1 => 0) (_ : State (Fin 2) Nat 1) :=
    ((Relation.ReflTransGen.refl.tail (Step.begin (0 : Fin 2) .writeLock rfl)).tail
      (Step.atomic 0 rfl)).tail (Step.atomic 0 rfl)
  exact ⟨_, reach, rfl, (seqMutex_exclusive reach).2⟩

/-- A reader whose second load finds `seq` as it saw it read every cell of the data as it is
at that load, unless `seq` went all the way round meanwhile. -/
theorem seqMutex_read_consistent (reach : Reachable userData s) {i : τ} {retry : Bool}
    {seq since : Nat} {snap : List α} (checking : s.phase i = .checking retry seq since snap)
    (unchanged : s.seq = seq) (round : s.ticks < since + usizeSize) :
    snap = List.ofFn s.data := by
  have good := good_of_reachable reach
  have fresh := good.fresh i
  rw [checking] at fresh
  obtain ⟨seen, cells⟩ := fresh
  apply cells
  -- the word is back where the reader saw it, and it has not gone round: nobody wrote
  have same : s.ticks % usizeSize = since % usizeSize := by
    rw [← good.word, unchanged, seen.word]
  have before := seen.le
  unfold usizeSize at same round
  omega

/-- User `0` reads the one cell of the data while nobody writes: its check finds `seq`
unchanged, and the cell it read is the data. -/
theorem seqMutex_read_consistent_alone :
    ∃ s : State (Fin 2) Nat 1, Reachable (fun _ => 7) s ∧
      s.phase 0 = .checking true 0 0 [7] ∧ [7] = List.ofFn s.data := by
  have reach : Reachable (fun _ : Fin 1 => 7) (_ : State (Fin 2) Nat 1) :=
    (((Relation.ReflTransGen.refl.tail (Step.begin (0 : Fin 2) .read rfl)).tail
      (Step.atomic 0 rfl)).tail (Step.atomic 0 rfl)).tail (Step.atomic 0 rfl)
  exact ⟨_, reach, rfl,
    @seqMutex_read_consistent Nat (Fin 2) _ 1 _ _ reach 0 true 0 0 [7] rfl rfl (by decide)⟩

end Results

end SeqMutex

end FtlOs
