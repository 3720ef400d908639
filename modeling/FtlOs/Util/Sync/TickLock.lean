import Mathlib

/-!
# The ticket lock

`TickLock` of `ftl-util/src/sync/ticklock.rs` keeps two wrapping `u32` counters in one word
`TC { tick, cur }`: `lock` draws `tick` with a `fetch_add` and spins until `cur` shows it, the
guard's drop stores `tick + 1` into `cur`, and `try_lock` takes the word with one
`compare_exchange` while the counters are equal.  With fewer than `2^32` users, those holding a
ticket stand in a line of which only the first may hold the guard (`State.Lines`), so the lock
excludes and refines a first-in first-out line of users (`Step.refines`); with `2^32 + 1` users
the tickets wrap onto the holder's and two users hold the lock at once.
-/

namespace FtlOs

namespace TickLock

/-- `0x10000000`, the spins after which `wait_tick` panics with `"Mutex: deadlock detected!"`. -/
def deadLock : Nat := 0x10000000

/-- The lock word `TC`: the next ticket and the ticket being served. -/
structure TC where
  tick : UInt32
  cur : UInt32
  deriving DecidableEq, Repr

/-- Where one lock user is: the atomic instruction it executes next, or the guard it holds. -/
inductive Phase where
  | idle
  /-- `lock`, its `tick.fetch_add(1)`. -/
  | draw
  /-- `wait_tick` for ticket `t`: the load of `cur` after `cnt` spins. -/
  | wait (t : UInt32) (cnt : Nat)
  /-- `try_lock`, its load of the word. -/
  | tryLoad
  /-- `try_lock`, its `compare_exchange(tc, new)` with the word `tc` it read. -/
  | tryCas (tc : TC)
  /-- A live `TickGuard` with ticket `t`. -/
  | held (t : UInt32)
  deriving DecidableEq, Repr

/-- The two lock functions. -/
inductive Call where
  | lock
  | tryLock
  deriving DecidableEq, Repr

/-- The first instruction of a call. -/
def Call.begin : Call → Phase
  | .lock => .draw
  | .tryLock => .tryLoad

namespace Phase

/-- One atomic instruction of a user in phase `ph` on the word `w`: the phase and word after
it; `none` is the panic of `wait_tick`.  A failed `try_lock` returns `None` and the user is
idle again.  An idle user executes nothing and changes nothing. -/
def step : Phase → TC → Option (Phase × TC)
  | idle, w => some (idle, w)
  | draw, w => some (wait w.tick 0, { w with tick := w.tick + 1 })
  | wait t cnt, w =>
    if w.cur ≠ t then
      if cnt + 1 = deadLock then none else some (wait t (cnt + 1), w)
    else some (held t, w)
  | tryLoad, w => if w.tick ≠ w.cur then some (idle, w) else some (tryCas w, w)
  | tryCas tc, w =>
    if w = tc then some (held tc.tick, { tc with tick := tc.tick + 1 }) else some (idle, w)
  -- the guard's drop stores `tick + 1` into `cur` alone
  | held t, w => some (idle, { w with cur := t + 1 })

/-- The ticket a user holds while it waits for the lock or holds the guard. -/
def ticket : Phase → Option UInt32
  | wait t _ => some t
  | held t => some t
  | _ => none

/-- A retry of `try_lock` only carries a word whose counters it saw equal. -/
def Valid : Phase → Prop
  | tryCas tc => tc.tick = tc.cur
  | _ => True

@[simp] theorem ticket_begin (c : Call) : c.begin.ticket = none := by
  cases c <;> rfl

@[simp] theorem valid_begin (c : Call) : c.begin.Valid := by
  cases c <;> trivial

/-- What one instruction can do: draw a ticket, take the lock through `try_lock`, enter with
the ticket being served, drop the guard, or else leave the word and the user's ticket as they
were and hold no guard. -/
theorem step_cases {ph ph' : Phase} {w w' : TC} (ran : ph.step w = some (ph', w')) :
    (ph = draw ∧ ph' = wait w.tick 0 ∧ w' = { w with tick := w.tick + 1 }) ∨
    (ph = tryCas w ∧ ph' = held w.tick ∧ w' = { w with tick := w.tick + 1 }) ∨
    (∃ cnt, ph = wait w.cur cnt ∧ ph' = held w.cur ∧ w' = w) ∨
    (∃ t, ph = held t ∧ ph' = idle ∧ w' = { w with cur := t + 1 }) ∨
    (w' = w ∧ ph'.ticket = ph.ticket ∧ ∀ t, ph' ≠ held t) := by
  cases ph with
  | idle =>
    simp only [step, Option.some.injEq, Prod.mk.injEq] at ran
    obtain ⟨rfl, rfl⟩ := ran
    simp
  | draw =>
    simp only [step, Option.some.injEq, Prod.mk.injEq] at ran
    obtain ⟨rfl, rfl⟩ := ran
    simp
  | wait t cnt =>
    simp only [step] at ran
    split_ifs at ran with other
    · cases ran
      simp [ticket]
    · -- `cur` shows the ticket
      cases ran
      obtain rfl : w.cur = t := not_not.mp other
      simp
  | tryLoad =>
    simp only [step] at ran
    split_ifs at ran <;> cases ran <;> simp [ticket]
  | tryCas tc =>
    simp only [step] at ran
    split_ifs at ran with same
    · cases ran
      subst same
      simp
    · cases ran
      simp [ticket]
  | held t =>
    simp only [step, Option.some.injEq, Prod.mk.injEq] at ran
    obtain ⟨rfl, rfl⟩ := ran
    simp

/-- `try_lock` only goes on to its exchange with a word whose counters are equal. -/
theorem valid_of_step {ph ph' : Phase} {w w' : TC} (ran : ph.step w = some (ph', w')) :
    ph'.Valid := by
  cases ph with
  | tryLoad =>
    simp only [step] at ran
    split_ifs at ran with equal
    · cases ran
      trivial
    · cases ran
      exact not_not.mp equal
  | wait t cnt =>
    simp only [step] at ran
    split_ifs at ran <;> cases ran <;> trivial
  | tryCas tc =>
    simp only [step] at ran
    split_ifs at ran <;> cases ran <;> trivial
  | idle | draw | held t =>
    simp only [step, Option.some.injEq, Prod.mk.injEq] at ran
    obtain ⟨rfl, rfl⟩ := ran
    trivial

end Phase

/-- The lock word and every user's phase. -/
@[ext] structure State (τ : Type) where
  word : TC
  phase : τ → Phase

/-- `TickLock::new`: both counters `0`, no user in a call. -/
def State.init {τ : Type} : State τ := ⟨⟨0, 0⟩, fun _ => .idle⟩

variable {τ : Type} [DecidableEq τ]

/-- One user starts a call, or executes one atomic instruction, in any interleaving: a lock
user is one call followed by the life of its guard.  `S::before_lock` and `S::after_unlock`
only switch interrupts and are left out. -/
inductive Step : State τ → State τ → Prop
  | begin {s : State τ} (i : τ) (c : Call) (idle : s.phase i = .idle) :
      Step s ⟨s.word, Function.update s.phase i c.begin⟩
  | atomic {s : State τ} {ph : Phase} {w : TC} (i : τ)
      (ran : (s.phase i).step s.word = some (ph, w)) :
      Step s ⟨w, Function.update s.phase i ph⟩

/-- The states some interleaving reaches without a panic. -/
def Reachable (s : State τ) : Prop := Relation.ReflTransGen Step State.init s

/-! ## Tickets in a line -/

/-- Fewer than `2^32` places after `cur`, tickets do not wrap onto each other. -/
theorem add_ofNat_inj {c : UInt32} {k l : Nat} (smallK : k < 2 ^ 32) (smallL : l < 2 ^ 32)
    (same : c + .ofNat k = c + .ofNat l) : k = l := by
  have onNat := congrArg UInt32.toNat same
  simp only [UInt32.toNat_add, UInt32.toNat_ofNat'] at onNat
  omega

theorem add_ofNat_succ (cur : UInt32) (k : Nat) :
    cur + .ofNat (k + 1) = cur + 1 + .ofNat k := by
  apply UInt32.toNat_inj.mp
  simp only [UInt32.toNat_add, UInt32.toNat_ofNat', UInt32.reduceToNat]
  omega

/-- The users holding a ticket stand in the line `q`: the `k`-th of them holds ticket
`cur + k` and `tick` is `cur` plus their number; only the first of the line may hold the
guard, and every retry of `try_lock` carries a word whose counters were equal. -/
structure State.Lines (s : State τ) (q : List τ) : Prop where
  nodup : q.Nodup
  mem : ∀ i, i ∈ q ↔ (s.phase i).ticket.isSome
  ticket : ∀ k i, q[k]? = some i → (s.phase i).ticket = some (s.word.cur + .ofNat k)
  tick : s.word.tick = s.word.cur + .ofNat q.length
  head : ∀ i t, s.phase i = .held t → q.head? = some i
  valid : ∀ i, (s.phase i).Valid

section Lines

variable {s : State τ} {q : List τ}

omit [DecidableEq τ] in
theorem lines_init : (State.init : State τ).Lines [] where
  nodup := List.nodup_nil
  mem _ := by simp [State.init, Phase.ticket]
  ticket _ _ found := by simp at found
  tick := rfl
  head _ _ held := by simp [State.init] at held
  valid _ := trivial

omit [DecidableEq τ] in
/-- A user without a ticket is not in the line. -/
theorem State.Lines.not_mem (lines : s.Lines q) {i : τ} (none : (s.phase i).ticket = none) :
    i ∉ q := by
  rw [lines.mem, none]
  simp

omit [DecidableEq τ] in
/-- The line is shorter than `2^32`. -/
theorem State.Lines.length_lt [Fintype τ] (bound : Fintype.card τ < 2 ^ 32) (lines : s.Lines q) :
    q.length < 2 ^ 32 :=
  lt_of_le_of_lt (lines.nodup.length_le_card) bound

omit [DecidableEq τ] in
/-- The user holding the ticket being served is the first of the line. -/
theorem State.Lines.head_of_ticket [Fintype τ] (bound : Fintype.card τ < 2 ^ 32)
    (lines : s.Lines q) {i : τ} (served : (s.phase i).ticket = some s.word.cur) :
    q.head? = some i := by
  obtain ⟨k, found⟩ := List.mem_iff_getElem?.mp ((lines.mem i).mpr (by simp [served]))
  have ticketK := lines.ticket k i found
  rw [served, Option.some.injEq] at ticketK
  have inLine : k < q.length := (List.getElem?_eq_some_iff.mp found).1
  have first : k = 0 := (add_ofNat_inj (c := s.word.cur) (k := 0) (by norm_num)
    (lt_of_lt_of_le inLine (lines.length_lt bound).le) (by simpa using ticketK)).symm
  subst first
  rw [List.head?_eq_getElem?]
  exact found

/-- Starting a call draws no ticket and takes no guard. -/
theorem State.Lines.begin (lines : s.Lines q) {i : τ} (c : Call) (idle : s.phase i = .idle) :
    (⟨s.word, Function.update s.phase i c.begin⟩ : State τ).Lines q := by
  have absent := lines.not_mem (i := i) (by rw [idle]; rfl)
  refine ⟨lines.nodup, fun j => ?_, fun k j found => ?_, lines.tick, fun j t held => ?_,
    fun j => ?_⟩
  · by_cases here : j = i
    · subst here
      simp [absent]
    · simpa [Function.update_of_ne here] using lines.mem j
  · have other : j ≠ i := fun same => absent (same ▸ List.mem_of_getElem? found)
    simpa [Function.update_of_ne other] using lines.ticket k j found
  · by_cases here : j = i
    · subst here
      cases c <;> simp [Call.begin] at held
    · exact lines.head j t (by simpa [Function.update_of_ne here] using held)
  · by_cases here : j = i
    · subst here
      simp
    · simpa [Function.update_of_ne here] using lines.valid j

/-- An instruction that moves no ticket and takes no guard keeps the line. -/
theorem State.Lines.quiet (lines : s.Lines q) {i : τ} {ph : Phase}
    (same : ph.ticket = (s.phase i).ticket) (notHeld : ∀ t, ph ≠ .held t) (valid : ph.Valid) :
    (⟨s.word, Function.update s.phase i ph⟩ : State τ).Lines q := by
  refine ⟨lines.nodup, fun j => ?_, fun k j found => ?_, lines.tick, fun j t held => ?_,
    fun j => ?_⟩
  · by_cases here : j = i
    · subst here
      simpa [same] using lines.mem j
    · simpa [Function.update_of_ne here] using lines.mem j
  · by_cases here : j = i
    · subst here
      simpa [same] using lines.ticket k j found
    · simpa [Function.update_of_ne here] using lines.ticket k j found
  · by_cases here : j = i
    · subst here
      simp only [Function.update_self] at held
      exact absurd held (notHeld t)
    · exact lines.head j t (by simpa [Function.update_of_ne here] using held)
  · by_cases here : j = i
    · subst here
      simpa using valid
    · simpa [Function.update_of_ne here] using lines.valid j

/-- `fetch_add` on `tick` puts the drawer at the end of the line. -/
theorem State.Lines.draw (lines : s.Lines q) {i : τ} (drawing : s.phase i = .draw) :
    (⟨{ s.word with tick := s.word.tick + 1 },
      Function.update s.phase i (.wait s.word.tick 0)⟩ : State τ).Lines (q ++ [i]) := by
  have absent := lines.not_mem (i := i) (by rw [drawing]; rfl)
  refine ⟨lines.nodup.append (List.nodup_singleton i) (by simpa using absent),
    fun j => ?_, fun k j found => ?_, ?_, fun j t held => ?_, fun j => ?_⟩
  · by_cases here : j = i
    · subst here
      simp [Phase.ticket]
    · simpa [Function.update_of_ne here, here] using lines.mem j
  · rw [List.getElem?_append] at found
    split_ifs at found with before
    · -- a user already in line keeps its ticket
      have other : j ≠ i := fun same => absent (same ▸ List.mem_of_getElem? found)
      simpa [Function.update_of_ne other] using lines.ticket k j found
    · -- the drawer holds the old `tick`, the place after the line
      have place : k = q.length := by
        have inside := (List.getElem?_eq_some_iff.mp found).1
        simp only [List.length_singleton] at inside
        omega
      subst place
      simp only [Nat.sub_self, List.getElem?_cons_zero, Option.some.injEq] at found
      subst found
      simp [Phase.ticket, lines.tick]
  · simp only [List.length_append, List.length_singleton, lines.tick, add_ofNat_succ]
    ac_rfl
  · by_cases here : j = i
    · subst here
      simp at held
    · have first := lines.head j t (by simpa [Function.update_of_ne here] using held)
      simp [List.head?_append, first]
  · by_cases here : j = i
    · subst here
      simp [Phase.Valid]
    · simpa [Function.update_of_ne here] using lines.valid j

/-- The waiter whose ticket `cur` shows is the first of the line, and entering keeps the
line. -/
theorem State.Lines.enter [Fintype τ] (bound : Fintype.card τ < 2 ^ 32) (lines : s.Lines q)
    {i : τ} {cnt : Nat} (waiting : s.phase i = .wait s.word.cur cnt) :
    q.head? = some i ∧
      (⟨s.word, Function.update s.phase i (.held s.word.cur)⟩ : State τ).Lines q := by
  have first := lines.head_of_ticket bound (i := i) (by rw [waiting]; rfl)
  refine ⟨first, lines.nodup, fun j => ?_, fun k j found => ?_, lines.tick,
    fun j t held => ?_, fun j => ?_⟩
  · by_cases here : j = i
    · subst here
      simpa [waiting, Phase.ticket] using lines.mem j
    · simpa [Function.update_of_ne here] using lines.mem j
  · by_cases here : j = i
    · subst here
      simpa [waiting, Phase.ticket] using lines.ticket k j found
    · simpa [Function.update_of_ne here] using lines.ticket k j found
  · by_cases here : j = i
    · subst here
      exact first
    · exact lines.head j t (by simpa [Function.update_of_ne here] using held)
  · by_cases here : j = i
    · subst here
      simp [Phase.Valid]
    · simpa [Function.update_of_ne here] using lines.valid j

/-- `try_lock`'s exchange succeeds only on an empty line, which its user then makes up
alone. -/
theorem State.Lines.grab [Fintype τ] (bound : Fintype.card τ < 2 ^ 32) (lines : s.Lines q)
    {i : τ} (trying : s.phase i = .tryCas s.word) :
    q = [] ∧ (⟨{ s.word with tick := s.word.tick + 1 },
      Function.update s.phase i (.held s.word.tick)⟩ : State τ).Lines [i] := by
  have equal : s.word.tick = s.word.cur := by simpa [trying, Phase.Valid] using lines.valid i
  have empty : q = [] := by
    have zero := add_ofNat_inj (c := s.word.cur) (k := q.length) (l := 0)
      (lines.length_lt bound) (by norm_num) (by rw [← lines.tick, equal]; simp)
    exact List.length_eq_zero_iff.mp zero
  subst empty
  refine ⟨rfl, List.nodup_singleton i, fun j => ?_, fun k j found => ?_, ?_,
    fun j t held => ?_, fun j => ?_⟩
  · by_cases here : j = i
    · subst here
      simp [Phase.ticket]
    · simpa [Function.update_of_ne here, here] using lines.mem j
  · obtain ⟨rfl, rfl⟩ : k = 0 ∧ j = i := by
      cases k <;> simp_all
    simp [Phase.ticket, equal]
  · simp [equal]
  · by_cases here : j = i
    · subst here
      rfl
    · simpa using lines.head j t (by simpa [Function.update_of_ne here] using held)
  · by_cases here : j = i
    · subst here
      simp [Phase.Valid]
    · simpa [Function.update_of_ne here] using lines.valid j

/-- The guard's holder is the first of the line with the ticket being served, and its drop
moves `cur` on to the next of the line. -/
theorem State.Lines.release (lines : s.Lines q) {i : τ} {t : UInt32}
    (holding : s.phase i = .held t) :
    ∃ rest, q = i :: rest ∧ t = s.word.cur ∧
      (⟨{ s.word with cur := t + 1 }, Function.update s.phase i .idle⟩ : State τ).Lines rest := by
  obtain ⟨rest, rfl⟩ : ∃ rest, q = i :: rest := by
    have first := lines.head i t holding
    cases q with
    | nil => simp at first
    | cons j rest =>
      simp only [List.head?_cons, Option.some.injEq] at first
      exact ⟨rest, by rw [first]⟩
  have served : t = s.word.cur := by
    simpa [holding, Phase.ticket] using lines.ticket 0 i rfl
  subst served
  have absent : i ∉ rest := (List.nodup_cons.mp lines.nodup).1
  refine ⟨rest, rfl, rfl, (List.nodup_cons.mp lines.nodup).2, fun j => ?_,
    fun k j found => ?_, ?_, fun j u held => ?_, fun j => ?_⟩
  · by_cases here : j = i
    · subst here
      simp [absent, Phase.ticket]
    · simpa [Function.update_of_ne here, here] using lines.mem j
  · have other : j ≠ i := fun same => absent (same ▸ List.mem_of_getElem? found)
    show (Function.update s.phase i .idle j).ticket = some (s.word.cur + 1 + .ofNat k)
    rw [Function.update_of_ne other, ← add_ofNat_succ]
    exact lines.ticket (k + 1) j (by simpa using found)
  · have tick := lines.tick
    simp only [List.length_cons, add_ofNat_succ] at tick
    exact tick
  · by_cases here : j = i
    · subst here
      simp at held
    · have first := lines.head j u (by simpa [Function.update_of_ne here] using held)
      simp only [List.head?_cons, Option.some.injEq] at first
      exact absurd first.symm here
  · by_cases here : j = i
    · subst here
      simp [Phase.Valid]
    · simpa [Function.update_of_ne here] using lines.valid j

/-- Every step keeps a line: the same one, one longer by the drawer, the one user of
`try_lock`, or the same without its first. -/
theorem State.Lines.step [Fintype τ] (bound : Fintype.card τ < 2 ^ 32) (lines : s.Lines q)
    {s' : State τ} (step : Step s s') : ∃ q', s'.Lines q' := by
  cases step with
  | begin i c idle => exact ⟨q, lines.begin c idle⟩
  | @atomic ph w i ran =>
    rcases Phase.step_cases ran with ⟨drawing, rfl, rfl⟩ | ⟨trying, rfl, rfl⟩ |
      ⟨cnt, waiting, rfl, rfl⟩ | ⟨t, holding, rfl, rfl⟩ | ⟨rfl, same, notHeld⟩
    · exact ⟨_, lines.draw drawing⟩
    · exact ⟨_, (lines.grab bound trying).2⟩
    · exact ⟨_, (lines.enter bound waiting).2⟩
    · obtain ⟨rest, -, -, lines'⟩ := lines.release holding
      exact ⟨rest, lines'⟩
    · exact ⟨q, lines.quiet same notHeld (Phase.valid_of_step ran)⟩

theorem lines_of_reachable [Fintype τ] (bound : Fintype.card τ < 2 ^ 32) {s : State τ}
    (reach : Reachable s) : ∃ q, s.Lines q := by
  induction reach with
  | refl => exact ⟨[], lines_init⟩
  | tail _ step ih =>
    obtain ⟨q, lines⟩ := ih
    exact lines.step bound step

end Lines

/-! ## Exclusion -/

/-- With fewer than `2^32` users, over every interleaving, at most one guard is live, and its
ticket is the one `cur` shows. -/
theorem tickLock_exclusive [Fintype τ] (bound : Fintype.card τ < 2 ^ 32) {s : State τ}
    (reach : Reachable s) {i j : τ} {t u : UInt32} (holdingI : s.phase i = .held t)
    (holdingJ : s.phase j = .held u) : i = j ∧ t = s.word.cur := by
  obtain ⟨q, lines⟩ := lines_of_reachable bound reach
  have firstI := lines.head i t holdingI
  have firstJ := lines.head j u holdingJ
  obtain ⟨-, -, served, -⟩ := lines.release holdingI
  refine ⟨?_, served⟩
  rw [firstI] at firstJ
  exact Option.some.inj firstJ

/-- Two users, the first of which has taken the lock: it holds ticket `0`, which `cur`
shows. -/
theorem tickLock_exclusive_after_lock :
    ∃ s : State (Fin 2), Reachable s ∧ s.phase 0 = .held 0 ∧ (0 : Fin 2) = 0 ∧
      (0 : UInt32) = s.word.cur := by
  have run : Reachable (τ := Fin 2) _ :=
    ((Relation.ReflTransGen.single (Step.begin 0 .lock rfl)).tail (Step.atomic 0 rfl)).tail
      (Step.atomic 0 rfl)
  exact ⟨_, run, rfl, tickLock_exclusive (by norm_num) run rfl rfl⟩

/-! ## The line the lock serves -/

/-- What a ticket lock is for: a line of users served in order, whose first user may hold
the lock. -/
structure Line (τ : Type) where
  users : List τ
  holding : Bool

/-- The moves of a line: a user joins its end, the first takes the lock, the holder leaves
the front, or a user takes a free lock with nobody in line. -/
inductive Line.Step : Line τ → Line τ → Prop
  | join {users : List τ} {holding : Bool} (i : τ) (absent : i ∉ users) :
      Line.Step ⟨users, holding⟩ ⟨users ++ [i], holding⟩
  | enter {i : τ} {rest : List τ} : Line.Step ⟨i :: rest, false⟩ ⟨i :: rest, true⟩
  | leave {i : τ} {rest : List τ} : Line.Step ⟨i :: rest, true⟩ ⟨rest, false⟩
  | grab (i : τ) : Line.Step ⟨[], false⟩ ⟨[i], true⟩

/-- A state stands for a line: its ticket holders in order, holding while a guard is live. -/
def State.Abstracts (s : State τ) (a : Line τ) : Prop :=
  s.Lines a.users ∧ (a.holding = true ↔ ∃ i t, s.phase i = .held t)

omit [DecidableEq τ] in
theorem abstracts_init : (State.init : State τ).Abstracts ⟨[], false⟩ :=
  ⟨lines_init, by simp [State.init]⟩

section Refines

variable {s : State τ} {a : Line τ}

omit [DecidableEq τ] in
/-- No guard is live while the first of the line waits. -/
theorem State.Lines.no_holder (lines : s.Lines q) {i : τ} (first : q.head? = some i)
    (noGuard : ∀ t, s.phase i ≠ .held t) : ∀ j t, s.phase j ≠ .held t := by
  intro j t held
  have same := lines.head j t held
  rw [first, Option.some.injEq] at same
  subst same
  exact noGuard t held

/-- After a step that changes no guard, the state stands for the same holding. -/
theorem holding_update {i : τ} {ph : Phase} (notHeld : ∀ t, ph ≠ .held t)
    (wasNot : ∀ t, s.phase i ≠ .held t) (w : TC) :
    (∃ j t, (⟨w, Function.update s.phase i ph⟩ : State τ).phase j = .held t) ↔
      ∃ j t, s.phase j = .held t := by
  constructor
  · rintro ⟨j, t, held⟩
    by_cases here : j = i
    · subst here
      simp only [Function.update_self] at held
      exact absurd held (notHeld t)
    · exact ⟨j, t, by simpa [Function.update_of_ne here] using held⟩
  · rintro ⟨j, t, held⟩
    have other : j ≠ i := fun same => wasNot t (same ▸ held)
    exact ⟨j, t, by simpa [Function.update_of_ne other] using held⟩

/-- With fewer than `2^32` users, every step of the ticket lock is a move of the line it
stands for, or leaves that line as it was: a drawer joins the end, only the first of the line
enters, only the holder leaves, and `try_lock` succeeds only with nobody in line. -/
theorem Step.refines [Fintype τ] (bound : Fintype.card τ < 2 ^ 32) (abs : s.Abstracts a)
    {s' : State τ} (step : Step s s') : ∃ a', s'.Abstracts a' ∧ (a' = a ∨ Line.Step a a') := by
  obtain ⟨lines, holding⟩ := abs
  cases step with
  | begin i c idle =>
    refine ⟨a, ⟨lines.begin c idle, ?_⟩, .inl rfl⟩
    rw [holding, holding_update (by cases c <;> simp [Call.begin]) (by simp [idle])]
  | @atomic ph w i ran =>
    rcases Phase.step_cases ran with ⟨drawing, rfl, rfl⟩ | ⟨trying, rfl, rfl⟩ |
      ⟨cnt, waiting, rfl, rfl⟩ | ⟨t, held, rfl, rfl⟩ | ⟨rfl, same, notHeld⟩
    · -- the drawer joins the end of the line
      refine ⟨⟨a.users ++ [i], a.holding⟩, ⟨lines.draw drawing, ?_⟩,
        .inr (.join i (lines.not_mem (by rw [drawing]; rfl)))⟩
      rw [holding, holding_update (by simp) (by simp [drawing])]
    · -- `try_lock` finds nobody in line and no guard
      obtain ⟨empty, lines'⟩ := lines.grab bound trying
      have free : a.holding = false := by
        rw [Bool.eq_false_iff, Ne, holding]
        rintro ⟨j, t, held⟩
        simpa [empty] using lines.head j t held
      obtain ⟨users, holding⟩ := a
      dsimp only at empty free
      subst empty free
      refine ⟨⟨[i], true⟩, ⟨lines', ?_⟩, .inr (.grab i)⟩
      simp only [true_iff]
      exact ⟨i, _, Function.update_self _ _ _⟩
    · -- the first of the line enters
      obtain ⟨first, lines'⟩ := lines.enter bound waiting
      have free : a.holding = false := by
        rw [Bool.eq_false_iff, Ne, holding]
        rintro ⟨j, t, held⟩
        exact lines.no_holder first (by simp [waiting]) j t held
      obtain ⟨users, holding⟩ := a
      obtain ⟨rest, rfl⟩ : ∃ rest, users = i :: rest := by
        cases users with
        | nil => simp at first
        | cons j rest =>
          simp only [List.head?_cons, Option.some.injEq] at first
          exact ⟨rest, by rw [first]⟩
      dsimp only at free
      subst free
      refine ⟨⟨i :: rest, true⟩, ⟨lines', ?_⟩, .inr .enter⟩
      simp only [true_iff]
      exact ⟨i, _, Function.update_self _ _ _⟩
    · -- the holder leaves the front
      obtain ⟨rest, split, -, lines'⟩ := lines.release held
      have busy : a.holding = true := holding.mpr ⟨i, t, held⟩
      obtain ⟨users, holding⟩ := a
      dsimp only at split busy
      subst split busy
      refine ⟨⟨rest, false⟩, ⟨lines', ?_⟩, .inr .leave⟩
      simp only [Bool.false_eq_true, false_iff, not_exists]
      intro j u guard
      by_cases here : j = i
      · subst here
        simp at guard
      · have first := lines.head j u (by simpa [Function.update_of_ne here] using guard)
        simp only [List.head?_cons, Option.some.injEq] at first
        exact here first.symm
    · have quiet := lines.quiet same notHeld (Phase.valid_of_step ran)
      refine ⟨a, ⟨quiet, ?_⟩, .inl rfl⟩
      -- a user that drops no guard took none before either
      have wasNot : ∀ t, s.phase i ≠ .held t := by
        intro t guard
        rw [guard] at ran same
        simp only [Phase.step, Option.some.injEq, Prod.mk.injEq] at ran
        rw [← ran.1] at same
        simp [Phase.ticket] at same
      rw [holding, holding_update notHeld wasNot]

/-- Two users: `0` takes the lock, `1` starts `lock`, and then draws the next ticket while `0`
holds the guard; the line the state stands for is followed through every step. -/
theorem refines_contended :
    ∃ (s s' : State (Fin 2)) (a : Line (Fin 2)), Step s s' ∧ s.Abstracts a ∧
      s.phase 0 = .held 0 ∧ s'.phase 1 = .wait 1 0 ∧
      ∃ a', s'.Abstracts a' ∧ (a' = a ∨ Line.Step a a') := by
  have bound : Fintype.card (Fin 2) < 2 ^ 32 := by norm_num
  obtain ⟨a₁, abs₁, -⟩ := Step.refines bound abstracts_init (Step.begin (τ := Fin 2) 0 .lock rfl)
  obtain ⟨a₂, abs₂, -⟩ := Step.refines bound abs₁ (Step.atomic 0 rfl)
  obtain ⟨a₃, abs₃, -⟩ := Step.refines bound abs₂ (Step.atomic 0 rfl)
  obtain ⟨a₄, abs₄, -⟩ := Step.refines bound abs₃ (Step.begin 1 .lock rfl)
  exact ⟨_, _, a₄, Step.atomic 1 rfl, abs₄, rfl, rfl,
    Step.refines bound abs₄ (Step.atomic 1 rfl)⟩

end Refines

/-! ## Where exclusion ends -/

/-- Among `2^32 + 1` users: user `0` holds ticket `0` and the users `1` to `k` wait with
tickets `1` to `k`. -/
def drawn (k : Nat) : State (Fin (2 ^ 32 + 1)) :=
  ⟨⟨.ofNat (k + 1), 0⟩, fun j =>
    if j.val = 0 then .held 0 else if j.val ≤ k then .wait (.ofNat j.val) 0 else .idle⟩

/-- The waiters come in one by one, each drawing the next ticket. -/
theorem reachable_drawn : ∀ k, k ≤ 2 ^ 32 → Reachable (drawn k)
  | 0, _ => by
    have run : Reachable (τ := Fin (2 ^ 32 + 1)) _ :=
      ((Relation.ReflTransGen.single (Step.begin 0 .lock rfl)).tail
        (Step.atomic 0 rfl)).tail (Step.atomic 0 rfl)
    convert run using 1
    ext j
    · rfl
    · by_cases first : j = 0
      · subst first
        rfl
      · simp [drawn, State.init, first]
  | k + 1, small => by
    have before := reachable_drawn k (by omega)
    let waiter : Fin (2 ^ 32 + 1) := ⟨k + 1, by omega⟩
    have idle : (drawn k).phase waiter = .idle := by
      simp [drawn, waiter]
    have run : Reachable _ := (before.tail (Step.begin waiter .lock idle)).tail
      (Step.atomic (s := ⟨_, Function.update (drawn k).phase waiter Call.lock.begin⟩) waiter
        (by simp only [Function.update_self, Call.begin]; rfl))
    convert run using 1
    ext j
    · simp only [drawn, UInt32.ofNat_add]
      ac_rfl
    · by_cases here : j = waiter
      · subst here
        simp [drawn, waiter]
      · have other : j.val ≠ k + 1 := fun same => here (Fin.ext same)
        simp only [drawn, Function.update_of_ne here]
        split_ifs <;> first | rfl | omega

/-- With `2^32 + 1` users the tickets wrap: the last waiter draws ticket `2^32`, which is
`0` again, and enters beside the holder of ticket `0`. -/
theorem tickLock_two_holders :
    ∃ s : State (Fin (2 ^ 32 + 1)), Reachable s ∧ s.phase 0 = .held 0 ∧
      s.phase (Fin.last _) = .held 0 := by
  have full := reachable_drawn (2 ^ 32) le_rfl
  have entered : ((drawn (2 ^ 32)).phase (Fin.last _)).step (drawn (2 ^ 32)).word =
      some (.held 0, (drawn (2 ^ 32)).word) := by
    simp [drawn, Fin.last, Phase.step]
  refine ⟨_, full.tail (Step.atomic (Fin.last _) entered), ?_, by simp⟩
  simp [drawn]

end TickLock

end FtlOs
