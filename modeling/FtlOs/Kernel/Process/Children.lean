import FtlOs.Library.OrdMap

/-!
# The children of a process

`ChildrenSet` of `process/children.rs` keeps a process's children in three ordered
collections: `alive`, the children registered and running; `zombie`, the children that
have exited and wait to be reaped; and `zombie_pending`, the pids of children that exited
before their parent registered them.  `push_child` of a pending pid and `become_zombie`
of an alive one both move the child to `zombie`.  When a process exits, its set is taken
and appended to the init process's, and `append` settles the pending pids of either side
against the merged `alive` map.

A release build drops the `debug_assert!`s; a `panic!()` (an `insert` on a present key,
`"double insert zombie"`) is `none`.  The processes are a type `P` of values, and the pid
of a pushed child, `child.pid()`, is passed beside it.

The abstract model records, per set and per pid, which of `push_child`, `become_zombie`
and a successful `try_remove_zombie` the set has seen (`Events`).  `Tracks` says that the
three collections are exactly the classification of that history.  Each operation,
`append` included, refines the matching change of history, and over every run of a
system of sets in which no pid is pushed twice or made a zombie twice, every set tracks
its history and no call panics.
-/

namespace FtlOs

/-- `Pid`, a `usize`; only its order is used. -/
abbrev Pid := Nat

/-- `ChildrenSet`. -/
structure ChildrenSet (P : Type) where
  alive : OrdMap Pid P
  zombie : OrdMap Pid P
  zombiePending : OrdMap Pid Unit

namespace ChildrenSet

variable {P : Type}

/-- `new`. -/
def new : ChildrenSet P := ⟨.empty, .empty, .empty⟩

/-- `is_empty`. -/
def isEmpty (s : ChildrenSet P) : Bool :=
  s.alive.size == 0 && s.zombie.size == 0 && s.zombiePending.size == 0

/-- `push_alive_child`: inserting a present pid is `panic!()`. -/
def pushAliveChild (s : ChildrenSet P) (pid : Pid) (child : P) : Option (ChildrenSet P) :=
  (s.alive.tryInsert pid child).map fun alive => { s with alive }

/-- `push_zombie_child`: inserting a present pid is `panic!()`. -/
def pushZombieChild (s : ChildrenSet P) (pid : Pid) (child : P) : Option (ChildrenSet P) :=
  (s.zombie.tryInsert pid child).map fun zombie => { s with zombie }

/-- `push_child`: a pid that already exited is a zombie at once. -/
def pushChild (s : ChildrenSet P) (pid : Pid) (child : P) : Option (ChildrenSet P) :=
  match s.zombiePending.remove pid with
  | some (_, zombiePending) => { s with zombiePending }.pushZombieChild pid child
  | none => s.pushAliveChild pid child

/-- `become_zombie`: an alive child moves to `zombie`, any other pid waits in
`zombie_pending`; a pid already pending is `panic!("double insert zombie")`. -/
def becomeZombie (s : ChildrenSet P) (pid : Pid) : Option (ChildrenSet P) :=
  match s.alive.remove pid with
  | some (child, alive) => { s with alive }.pushZombieChild pid child
  | none => (s.zombiePending.tryInsert pid ()).map fun zombiePending => { s with zombiePending }

/-- `try_remove_zombie`. -/
def tryRemoveZombie (s : ChildrenSet P) (pid : Pid) : Option P × ChildrenSet P :=
  match s.zombie.remove pid with
  | some (child, zombie) => (some child, { s with zombie })
  | none => (none, s)

/-- `try_remove_zombie_any`: the zombie of least pid. -/
def tryRemoveZombieAny (s : ChildrenSet P) : Option P × ChildrenSet P :=
  match s.zombie.popFirst with
  | some ((_, child), zombie) => (some child, { s with zombie })
  | none => (none, s)

/-- `take`: the set, and a new one left in its place. -/
def take (s : ChildrenSet P) : ChildrenSet P × ChildrenSet P := (s, new)

/-- The `while let Some(pid) = zombie_pending.pop_first()` loop of `append`. -/
def becomeZombies (s : ChildrenSet P) (pending : OrdMap Pid Unit) : Option (ChildrenSet P) :=
  match _popped : pending.popFirst with
  | none => some s
  | some ((pid, ()), rest) => (s.becomeZombie pid).bind fun s' => s'.becomeZombies rest
termination_by pending.size
decreasing_by exact OrdMap.size_popFirst_lt _popped

/-- `append`: `self` takes the children of `src`, then the pending pids of both sides, in
increasing order, are made zombies of the merged set.  `src` is left empty: its maps
were moved and its pending set popped to the end. -/
def append (s src : ChildrenSet P) : Option (ChildrenSet P × ChildrenSet P) :=
  let merged : ChildrenSet P := ⟨s.alive.append src.alive, s.zombie.append src.zombie, .empty⟩
  (merged.becomeZombies (src.zombiePending.append s.zombiePending)).map fun s' => (s', new)

/-! ## Histories -/

/-- Which events one set has seen for one pid. -/
structure Events where
  pushed : Bool
  zombied : Bool
  removed : Bool
  deriving DecidableEq, Repr

namespace Events

/-- No event yet. -/
def idle : Events := ⟨false, false, false⟩

/-- `push_child`. -/
def push (e : Events) : Events := { e with pushed := true }

/-- `become_zombie`. -/
def exit (e : Events) : Events := { e with zombied := true }

/-- A `try_remove_zombie` that found the child. -/
def reap (e : Events) : Events := { e with removed := true }

/-- The events two sets have seen, together. -/
def merge (e f : Events) : Events :=
  ⟨e.pushed || f.pushed, e.zombied || f.zombied, e.removed || f.removed⟩

/-- Pushed and not exited: in `alive`. -/
def alive (e : Events) : Bool := e.pushed && !e.zombied

/-- Pushed and exited, not reaped: in `zombie`. -/
def zombie (e : Events) : Bool := e.pushed && e.zombied && !e.removed

/-- Exited before it was pushed: in `zombie_pending`. -/
def pending (e : Events) : Bool := e.zombied && !e.pushed

/-- Only a zombie is reaped. -/
def Sane (e : Events) : Prop := e.removed = true → e.pushed = true ∧ e.zombied = true

/-- Two sets never both saw the push, or both the exit, of one pid. -/
def Apart (e f : Events) : Prop := (e.pushed && f.pushed) = false ∧ (e.zombied && f.zombied) = false

instance : DecidablePred Sane := fun _ => inferInstanceAs (Decidable (_ → _))

instance (e f : Events) : Decidable (Apart e f) := inferInstanceAs (Decidable (_ ∧ _))

/-- A push the set has not seen: where the pid was, and where it goes. -/
theorem push_spec {e : Events} (fresh : e.pushed = false) (sane : e.Sane) :
    e.alive = false ∧ e.zombie = false ∧ e.pending = e.zombied ∧
      e.push.alive = !e.zombied ∧ e.push.zombie = e.zombied ∧ e.push.pending = false ∧
      e.push.Sane := by
  obtain ⟨p, z, r⟩ := e
  simp only [Sane] at fresh sane
  revert fresh sane
  revert p z r
  decide

/-- An exit the set has not seen. -/
theorem exit_spec {e : Events} (fresh : e.zombied = false) (sane : e.Sane) :
    e.alive = e.pushed ∧ e.zombie = false ∧ e.pending = false ∧
      e.exit.alive = false ∧ e.exit.zombie = e.pushed ∧ e.exit.pending = !e.pushed ∧
      e.exit.Sane := by
  obtain ⟨p, z, r⟩ := e
  simp only [Sane] at fresh sane
  revert fresh sane
  revert p z r
  decide

/-- Reaping a zombie. -/
theorem reap_spec {e : Events} (found : e.zombie = true) :
    e.alive = false ∧ e.pending = false ∧
      e.reap.alive = false ∧ e.reap.zombie = false ∧ e.reap.pending = false ∧ e.reap.Sane := by
  obtain ⟨p, z, r⟩ := e
  revert found
  revert p z r
  decide

theorem Apart.symm {e f : Events} (apart : Apart e f) : Apart f e :=
  ⟨by rw [Bool.and_comm]; exact apart.1, by rw [Bool.and_comm]; exact apart.2⟩

theorem idle_apart (f : Events) : Apart idle f := ⟨rfl, rfl⟩

theorem Apart.push {e f : Events} (apart : Apart e f) (fresh : f.pushed = false) :
    Apart e.push f :=
  ⟨by simp [Events.push, fresh], apart.2⟩

theorem Apart.exit {e f : Events} (apart : Apart e f) (fresh : f.zombied = false) :
    Apart e.exit f :=
  ⟨apart.1, by simp [Events.exit, fresh]⟩

theorem Apart.reap {e f : Events} (apart : Apart e f) : Apart e.reap f := apart

theorem Apart.merge {e f g : Events} (left : Apart e g) (right : Apart f g) :
    Apart (e.merge f) g :=
  ⟨by dsimp only [Events.merge]; rw [Bool.and_or_distrib_right, left.1, right.1]; rfl,
    by dsimp only [Events.merge]; rw [Bool.and_or_distrib_right, left.2, right.2]; rfl⟩

/-- What `append` has before its loop: the events of both sides, with the exits of the
pids pending on either side not yet applied. -/
def unsettled (e f : Events) : Events :=
  if e.pending || f.pending then { e.merge f with zombied := false } else e.merge f

/-- The merged collections classify the unsettled events, and the loop's exits settle
them. -/
theorem unsettled_spec {e f : Events} (apart : Apart e f) (saneE : Sane e) (saneF : Sane f) :
    (unsettled e f).alive = (f.alive || e.alive) ∧
      (unsettled e f).zombie = (f.zombie || e.zombie) ∧
      (unsettled e f).pending = false ∧ (unsettled e f).Sane ∧
      (if e.pending || f.pending then (unsettled e f).exit else unsettled e f) = e.merge f := by
  obtain ⟨p, z, r⟩ := e
  obtain ⟨p', z', r'⟩ := f
  simp only [Apart, Sane] at apart saneE saneF
  revert apart saneE saneF
  revert p z r p' z' r'
  decide

end Events

/-- A history: the events one set has seen, for each pid. -/
abbrev Hist := Pid → Events

/-- The three collections are the classification of the history, and a pid is reaped
only as a zombie. -/
structure Tracks (s : ChildrenSet P) (h : Hist) : Prop where
  alive : ∀ pid, (s.alive.get? pid).isSome = (h pid).alive
  zombie : ∀ pid, (s.zombie.get? pid).isSome = (h pid).zombie
  pending : ∀ pid, (s.zombiePending.get? pid).isSome = (h pid).pending
  sane : ∀ pid, (h pid).Sane

theorem tracks_new : (new : ChildrenSet P).Tracks fun _ => Events.idle where
  alive _ := rfl
  zombie _ := rfl
  pending _ := rfl
  sane _ := fun reaped => by cases reaped

section Tracks

variable {s : ChildrenSet P} {h : Hist}

/-- The three collections never share a pid. -/
theorem Tracks.disjoint (tracks : s.Tracks h) (pid : Pid) :
    ¬((s.alive.get? pid).isSome ∧ (s.zombie.get? pid).isSome) ∧
      ¬((s.alive.get? pid).isSome ∧ (s.zombiePending.get? pid).isSome) ∧
      ¬((s.zombie.get? pid).isSome ∧ (s.zombiePending.get? pid).isSome) := by
  rw [tracks.alive, tracks.zombie, tracks.pending]
  obtain ⟨p, z, r⟩ := h pid
  revert p z r
  decide

/-- A change at one pid: every other pid keeps its place, and at `pid` the collections
classify the new events. -/
theorem Tracks.update (tracks : s.Tracks h) {s' : ChildrenSet P} {pid : Pid} {e : Events}
    (alive : ∀ k ≠ pid, s'.alive.get? k = s.alive.get? k)
    (zombie : ∀ k ≠ pid, s'.zombie.get? k = s.zombie.get? k)
    (pending : ∀ k ≠ pid, s'.zombiePending.get? k = s.zombiePending.get? k)
    (aliveHere : (s'.alive.get? pid).isSome = e.alive)
    (zombieHere : (s'.zombie.get? pid).isSome = e.zombie)
    (pendingHere : (s'.zombiePending.get? pid).isSome = e.pending) (sane : e.Sane) :
    s'.Tracks (Function.update h pid e) := by
  refine ⟨fun k => ?_, fun k => ?_, fun k => ?_, fun k => ?_⟩
  all_goals by_cases here : k = pid
  -- at `pid` the new events, elsewhere the old ones
  · rw [here, Function.update_self, aliveHere]
  · rw [Function.update_of_ne here, alive k here, tracks.alive]
  · rw [here, Function.update_self, zombieHere]
  · rw [Function.update_of_ne here, zombie k here, tracks.zombie]
  · rw [here, Function.update_self, pendingHere]
  · rw [Function.update_of_ne here, pending k here, tracks.pending]
  · rw [here, Function.update_self]
    exact sane
  · rw [Function.update_of_ne here]
    exact tracks.sane k

/-- `push_child` of a pid the set has not seen pushed never panics, and records the
push. -/
theorem Tracks.pushChild (tracks : s.Tracks h) {pid : Pid} (child : P)
    (fresh : (h pid).pushed = false) :
    ∃ s', s.pushChild pid child = some s' ∧ s'.Tracks (Function.update h pid (h pid).push) := by
  obtain ⟨wasAlive, wasZombie, wasPending, nowAlive, nowZombie, nowPending, sane⟩ :=
    Events.push_spec fresh (tracks.sane pid)
  have notAlive : s.alive.get? pid = none := by simpa [wasAlive] using tracks.alive pid
  have notZombie : s.zombie.get? pid = none := by simpa [wasZombie] using tracks.zombie pid
  cases pendingHere : s.zombiePending.get? pid with
  | some u =>
    -- it exited first: straight to `zombie`
    have exited : (h pid).zombied = true := by
      rw [← wasPending, ← tracks.pending, pendingHere]
      rfl
    refine ⟨{ s with zombie := s.zombie.insert pid child, zombiePending := s.zombiePending.erase pid },
      by simp [ChildrenSet.pushChild, OrdMap.remove, pendingHere, pushZombieChild,
        OrdMap.tryInsert_of_get?_eq_none notZombie], tracks.update ?_ ?_ ?_ ?_ ?_ ?_ sane⟩
    · exact fun k _ => rfl
    · exact fun k other => by simp [OrdMap.get?_insert, other]
    · exact fun k other => by simp [OrdMap.get?_erase, other]
    · simp [notAlive, nowAlive, exited]
    · simp [OrdMap.get?_insert, nowZombie, exited]
    · simp [OrdMap.get?_erase, nowPending]
  | none =>
    have running : (h pid).zombied = false := by
      rw [← wasPending, ← tracks.pending, pendingHere]
      rfl
    refine ⟨{ s with alive := s.alive.insert pid child },
      by simp [ChildrenSet.pushChild, OrdMap.remove, pendingHere, pushAliveChild,
        OrdMap.tryInsert_of_get?_eq_none notAlive], tracks.update ?_ ?_ ?_ ?_ ?_ ?_ sane⟩
    · exact fun k other => by simp [OrdMap.get?_insert, other]
    · exact fun k _ => rfl
    · exact fun k _ => rfl
    · simp [OrdMap.get?_insert, nowAlive, running]
    · simp [notZombie, nowZombie, running]
    · simp [pendingHere, nowPending]

/-- `become_zombie` of a pid the set has not seen exit never panics, and records the
exit. -/
theorem Tracks.becomeZombie (tracks : s.Tracks h) {pid : Pid} (fresh : (h pid).zombied = false) :
    ∃ s', s.becomeZombie pid = some s' ∧ s'.Tracks (Function.update h pid (h pid).exit) := by
  obtain ⟨wasAlive, wasZombie, wasPending, nowAlive, nowZombie, nowPending, sane⟩ :=
    Events.exit_spec fresh (tracks.sane pid)
  have notZombie : s.zombie.get? pid = none := by simpa [wasZombie] using tracks.zombie pid
  have notPending : s.zombiePending.get? pid = none := by
    simpa [wasPending] using tracks.pending pid
  cases aliveHere : s.alive.get? pid with
  | some child =>
    -- an alive child moves to `zombie`
    have pushed : (h pid).pushed = true := by
      rw [← wasAlive, ← tracks.alive, aliveHere]
      rfl
    refine ⟨{ s with alive := s.alive.erase pid, zombie := s.zombie.insert pid child },
      by simp [ChildrenSet.becomeZombie, OrdMap.remove, aliveHere, pushZombieChild,
        OrdMap.tryInsert_of_get?_eq_none notZombie], tracks.update ?_ ?_ ?_ ?_ ?_ ?_ sane⟩
    · exact fun k other => by simp [OrdMap.get?_erase, other]
    · exact fun k other => by simp [OrdMap.get?_insert, other]
    · exact fun k _ => rfl
    · simp [OrdMap.get?_erase, nowAlive]
    · simp [OrdMap.get?_insert, nowZombie, pushed]
    · simp [notPending, nowPending, pushed]
  | none =>
    -- not pushed yet: it waits in `zombie_pending`
    have notPushed : (h pid).pushed = false := by
      rw [← wasAlive, ← tracks.alive, aliveHere]
      rfl
    refine ⟨{ s with zombiePending := s.zombiePending.insert pid () },
      by simp [ChildrenSet.becomeZombie, OrdMap.remove, aliveHere,
        OrdMap.tryInsert_of_get?_eq_none notPending], tracks.update ?_ ?_ ?_ ?_ ?_ ?_ sane⟩
    · exact fun k _ => rfl
    · exact fun k _ => rfl
    · exact fun k other => by simp [OrdMap.get?_insert, other]
    · simp [aliveHere, nowAlive]
    · simp [notZombie, nowZombie, notPushed]
    · simp [OrdMap.get?_insert, nowPending, notPushed]

/-- Taking a zombie out of `zombie` reaps it. -/
theorem Tracks.reapAt (tracks : s.Tracks h) {pid : Pid} (found : (s.zombie.get? pid).isSome) :
    ({ s with zombie := s.zombie.erase pid } : ChildrenSet P).Tracks
      (Function.update h pid (h pid).reap) := by
  have isZombie : (h pid).zombie = true := by rw [← tracks.zombie, found]
  obtain ⟨wasAlive, wasPending, nowAlive, nowZombie, nowPending, sane⟩ :=
    Events.reap_spec isZombie
  refine tracks.update (fun k _ => rfl) (fun k other => by simp [OrdMap.get?_erase, other])
    (fun k _ => rfl) ?_ ?_ ?_ sane
  · rw [tracks.alive, wasAlive, nowAlive]
  · simp [OrdMap.get?_erase, nowZombie]
  · rw [tracks.pending, wasPending, nowPending]

/-- `try_remove_zombie` returns a child exactly for a zombie, and reaps it. -/
theorem Tracks.tryRemoveZombie (tracks : s.Tracks h) (pid : Pid) :
    (s.tryRemoveZombie pid).1.isSome = (h pid).zombie ∧
      (s.tryRemoveZombie pid).2.Tracks
        (if (h pid).zombie then Function.update h pid (h pid).reap else h) := by
  rw [← tracks.zombie]
  cases zombieHere : s.zombie.get? pid with
  | some child =>
    simp only [ChildrenSet.tryRemoveZombie, OrdMap.remove, zombieHere, Option.map_some,
      Option.isSome_some, if_true, true_and]
    exact tracks.reapAt (by rw [zombieHere]; rfl)
  | none =>
    simp only [ChildrenSet.tryRemoveZombie, OrdMap.remove, zombieHere, Option.map_none,
      Option.isSome_none, Bool.false_eq_true, if_false, true_and]
    exact tracks

/-- `try_remove_zombie_any` reaps the zombie of least pid, or finds none. -/
theorem Tracks.tryRemoveZombieAny (tracks : s.Tracks h) :
    (s.tryRemoveZombieAny = (none, s) ∧ ∀ pid, (h pid).zombie = false) ∨
      ∃ pid, (h pid).zombie = true ∧ (∀ k, (h k).zombie = true → pid ≤ k) ∧
        s.tryRemoveZombieAny.1.isSome ∧
        s.tryRemoveZombieAny.2.Tracks (Function.update h pid (h pid).reap) := by
  cases popped : s.zombie.popFirst with
  | none =>
    have empty := OrdMap.popFirst_eq_none_iff.mp popped
    refine .inl ⟨by simp [ChildrenSet.tryRemoveZombieAny, popped], fun pid => ?_⟩
    rw [← tracks.zombie, OrdMap.get?_eq_none_of_size_eq_zero empty]
    rfl
  | some first =>
    obtain ⟨⟨pid, child⟩, rest⟩ := first
    obtain ⟨member, least, rfl⟩ := OrdMap.popFirst_spec popped
    have found : s.zombie.get? pid = some child := OrdMap.get?_eq_some_iff.mpr member
    refine .inr ⟨pid, by rw [← tracks.zombie, found]; rfl, fun k isZombie => ?_, ?_, ?_⟩
    · -- a zombie's pid is a key of `zombie`, and `pop_first` takes the least key
      rw [← tracks.zombie] at isZombie
      obtain ⟨w, entry⟩ := Option.isSome_iff_exists.mp isZombie
      exact least (k, w) (OrdMap.get?_eq_some_iff.mp entry)
    · simp [ChildrenSet.tryRemoveZombieAny, popped]
    · simp only [ChildrenSet.tryRemoveZombieAny, popped]
      exact tracks.reapAt (by rw [found]; rfl)

/-- The loop of `append` makes every pid of `pending` exit, in increasing order, and never
panics while none of them has exited. -/
theorem Tracks.becomeZombies {pending : OrdMap Pid Unit} (tracks : s.Tracks h)
    (fresh : ∀ pid, (pending.get? pid).isSome → (h pid).zombied = false) :
    ∃ s', s.becomeZombies pending = some s' ∧
      s'.Tracks fun pid => if (pending.get? pid).isSome then (h pid).exit else h pid := by
  induction s, pending using ChildrenSet.becomeZombies.induct generalizing h with
  | case1 s pending popped =>
    -- nothing pending: the history stands
    have empty := OrdMap.popFirst_eq_none_iff.mp popped
    refine ⟨s, by rw [ChildrenSet.becomeZombies, popped], ?_⟩
    simpa [OrdMap.get?_eq_none_of_size_eq_zero empty] using tracks
  | case2 s pending pid rest popped ih =>
    obtain ⟨member, -, rfl⟩ := OrdMap.popFirst_spec popped
    have first : (pending.get? pid).isSome := by
      rw [OrdMap.get?_eq_some_iff.mpr member]
      rfl
    obtain ⟨s1, exited, tracks1⟩ := tracks.becomeZombie (fresh pid first)
    have freshRest : ∀ k, ((pending.erase pid).get? k).isSome →
        (Function.update h pid (h pid).exit k).zombied = false := by
      intro k later
      by_cases here : k = pid
      · simp [OrdMap.get?_erase, here] at later
      · rw [OrdMap.get?_erase, if_neg here] at later
        rw [Function.update_of_ne here]
        exact fresh k later
    obtain ⟨s', rest, tracks'⟩ := ih s1 tracks1 freshRest
    refine ⟨s', by rw [ChildrenSet.becomeZombies, popped]; simp [exited, rest], ?_⟩
    -- the pid popped first exited at the first turn, every other one in the rest
    convert tracks' using 2 with k
    by_cases here : k = pid
    · simp [here, first, OrdMap.get?_erase]
    · simp [here, OrdMap.get?_erase]

/-- `append` never panics on two sets that never saw the same push or the same exit:
`src` is left new, and `self` classifies the events of both. -/
theorem Tracks.append {src : ChildrenSet P} {g : Hist} (tracks : s.Tracks h)
    (tracksSrc : src.Tracks g) (apart : ∀ pid, (h pid).Apart (g pid)) :
    ∃ s', s.append src = some (s', new) ∧ s'.Tracks fun pid => (h pid).merge (g pid) := by
  let merged : ChildrenSet P :=
    ⟨s.alive.append src.alive, s.zombie.append src.zombie, .empty⟩
  let pending := src.zombiePending.append s.zombiePending
  have spec := fun pid => Events.unsettled_spec (apart pid) (tracks.sane pid) (tracksSrc.sane pid)
  have pendingHere : ∀ pid, (pending.get? pid).isSome = ((h pid).pending || (g pid).pending) := by
    intro pid
    rw [OrdMap.get?_append, Option.isSome_or, tracksSrc.pending, tracks.pending]
  -- before the loop the merged maps classify the unsettled events
  have before : merged.Tracks fun pid => (h pid).unsettled (g pid) := by
    refine ⟨fun pid => ?_, fun pid => ?_, fun pid => (spec pid).2.2.1.symm,
      fun pid => (spec pid).2.2.2.1⟩
    · show ((s.alive.append src.alive).get? pid).isSome = _
      rw [(spec pid).1, OrdMap.get?_append, Option.isSome_or, tracksSrc.alive, tracks.alive]
    · show ((s.zombie.append src.zombie).get? pid).isSome = _
      rw [(spec pid).2.1, OrdMap.get?_append, Option.isSome_or, tracksSrc.zombie, tracks.zombie]
  have fresh : ∀ pid, (pending.get? pid).isSome →
      ((h pid).unsettled (g pid)).zombied = false := by
    intro pid waiting
    rw [pendingHere] at waiting
    simp [Events.unsettled, waiting]
  obtain ⟨s', settled, tracks'⟩ := before.becomeZombies fresh
  refine ⟨s', by simp [ChildrenSet.append, merged, pending, settled], ?_⟩
  convert tracks' using 2 with pid
  rw [pendingHere]
  exact ((spec pid).2.2.2.2).symm

end Tracks

/-! ## Systems of sets -/

/-- A call on the children sets of a system whose holders, the processes' `children`
fields and the sets taken out of them, are indexed by `ι`. -/
inductive ChildCall (ι P : Type) where
  | pushChild (o : ι) (pid : Pid) (child : P)
  | becomeZombie (o : ι) (pid : Pid)
  | tryRemoveZombie (o : ι) (pid : Pid)
  | tryRemoveZombieAny (o : ι)
  | take (o dst : ι)
  | append (o src : ι)

/-- The least pid a history has as a zombie. -/
noncomputable def leastZombie (h : Hist) : Option Pid :=
  open Classical in
  if found : ∃ pid, (h pid).zombie = true then some (Nat.find found) else none

theorem leastZombie_eq_some {h : Hist} {pid : Pid} (isZombie : (h pid).zombie = true)
    (least : ∀ k, (h k).zombie = true → pid ≤ k) : leastZombie h = some pid := by
  have found : ∃ pid, (h pid).zombie = true := ⟨pid, isZombie⟩
  rw [leastZombie, dif_pos found, Option.some.injEq]
  exact le_antisymm (Nat.find_min' found isZombie) (least _ (Nat.find_spec found))

theorem leastZombie_eq_none {h : Hist} (none : ∀ pid, (h pid).zombie = false) :
    leastZombie h = .none := by
  have missing : ¬∃ pid, (h pid).zombie = true := fun ⟨pid, isZombie⟩ => by
    rw [none pid] at isZombie
    cases isZombie
  rw [leastZombie, dif_neg missing]

namespace ChildCall

variable {ι : Type} [DecidableEq ι]

/-- The call on the sets; `none` is a panic.  `take` moves the set into the holder
`dst`, whose old set is dropped, and `Drop` asserts that it is empty. -/
def exec : ChildCall ι P → (ι → ChildrenSet P) → Option (ι → ChildrenSet P)
  | .pushChild o pid child, sets => ((sets o).pushChild pid child).map (Function.update sets o)
  | .becomeZombie o pid, sets => ((sets o).becomeZombie pid).map (Function.update sets o)
  | .tryRemoveZombie o pid, sets =>
    some (Function.update sets o ((sets o).tryRemoveZombie pid).2)
  | .tryRemoveZombieAny o, sets => some (Function.update sets o (sets o).tryRemoveZombieAny.2)
  | .take o dst, sets =>
    if (sets dst).isEmpty then
      some (Function.update (Function.update sets o (sets o).take.2) dst (sets o).take.1)
    else none
  | .append o src, sets =>
    ((sets o).append (sets src)).map fun (s', src') =>
      Function.update (Function.update sets src src') o s'

/-- What the call adds to the histories: the events of one set, or, for `take` and
`append`, the history moving with the children. -/
noncomputable def record : ChildCall ι P → (ι → Hist) → (ι → Hist)
  | .pushChild o pid _, hs => Function.update hs o (Function.update (hs o) pid (hs o pid).push)
  | .becomeZombie o pid, hs => Function.update hs o (Function.update (hs o) pid (hs o pid).exit)
  | .tryRemoveZombie o pid, hs =>
    Function.update hs o
      (if (hs o pid).zombie then Function.update (hs o) pid (hs o pid).reap else hs o)
  | .tryRemoveZombieAny o, hs =>
    Function.update hs o
      (match leastZombie (hs o) with
        | some pid => Function.update (hs o) pid (hs o pid).reap
        | none => hs o)
  | .take o dst, hs => Function.update (Function.update hs o fun _ => .idle) dst (hs o)
  | .append o src, hs =>
    Function.update (Function.update hs src fun _ => .idle) o
      fun pid => (hs o pid).merge (hs src pid)

/-- The calls of a run: no pid is pushed twice, or exits twice, where any holder's history
would see it; a set is taken into another holder that has no child, and appended from
another holder. -/
def Allowed : ChildCall ι P → (ι → Hist) → Prop
  | .pushChild _ pid _, hs => ∀ o, (hs o pid).pushed = false
  | .becomeZombie _ pid, hs => ∀ o, (hs o pid).zombied = false
  | .take o dst, hs =>
    o ≠ dst ∧ ∀ pid, (hs dst pid).alive = false ∧ (hs dst pid).zombie = false ∧
      (hs dst pid).pending = false
  | .append o src, _ => o ≠ src
  | _, _ => True

end ChildCall

/-- Every set tracks its history, and two holders never saw the same push or exit. -/
structure Consistent {ι : Type} (sets : ι → ChildrenSet P) (hs : ι → Hist) : Prop where
  tracks : ∀ o, (sets o).Tracks (hs o)
  apart : ∀ o o', o ≠ o' → ∀ pid, (hs o pid).Apart (hs o' pid)

section Consistent

variable {ι : Type} [DecidableEq ι] {sets : ι → ChildrenSet P} {hs : ι → Hist}

omit [DecidableEq ι] in
theorem consistent_new : Consistent (fun _ : ι => (new : ChildrenSet P)) fun _ _ => .idle :=
  ⟨fun _ => tracks_new, fun _ _ _ _ => Events.idle_apart _⟩

/-- Changing one holder keeps the others. -/
theorem Consistent.update (good : Consistent sets hs) {o : ι} {s : ChildrenSet P} {h : Hist}
    (tracks : s.Tracks h) (apart : ∀ o', o' ≠ o → ∀ pid, (h pid).Apart (hs o' pid)) :
    Consistent (Function.update sets o s) (Function.update hs o h) := by
  refine ⟨fun o' => ?_, fun o1 o2 distinct pid => ?_⟩
  · by_cases here : o' = o
    · subst here
      simpa using tracks
    · simpa [Function.update_of_ne here] using good.tracks o'
  · by_cases first : o1 = o
    · subst first
      simpa [Function.update_of_ne (Ne.symm distinct)] using apart o2 (Ne.symm distinct) pid
    · by_cases second : o2 = o
      · subst second
        simpa [Function.update_of_ne first] using (apart o1 first pid).symm
      · simpa [Function.update_of_ne first, Function.update_of_ne second] using
          good.apart o1 o2 distinct pid

/-- One event at one pid of one holder, apart from the other holders. -/
theorem Consistent.updateAt (good : Consistent sets hs) {o : ι} {s : ChildrenSet P} {pid : Pid}
    {e : Events} (tracks : s.Tracks (Function.update (hs o) pid e))
    (apart : ∀ o', o' ≠ o → (e.Apart (hs o' pid))) :
    Consistent (Function.update sets o s) (Function.update hs o (Function.update (hs o) pid e)) := by
  refine good.update tracks fun o' other k => ?_
  by_cases here : k = pid
  · subst here
    simpa using apart o' other
  · simpa [Function.update_of_ne here] using good.apart o o' (Ne.symm other) k

/-- Every allowed call succeeds and keeps the system consistent with its recorded
history. -/
theorem Consistent.exec (good : Consistent sets hs) {c : ChildCall ι P} (allowed : c.Allowed hs) :
    ∃ sets', c.exec sets = some sets' ∧ Consistent sets' (c.record hs) := by
  cases c with
  | pushChild o pid child =>
    obtain ⟨s', pushed, tracks'⟩ := (good.tracks o).pushChild child (allowed o)
    refine ⟨_, by simp [ChildCall.exec, pushed], good.updateAt tracks' fun o' other => ?_⟩
    exact (good.apart o o' (Ne.symm other) pid).push (allowed o')
  | becomeZombie o pid =>
    obtain ⟨s', exited, tracks'⟩ := (good.tracks o).becomeZombie (allowed o)
    refine ⟨_, by simp [ChildCall.exec, exited], good.updateAt tracks' fun o' other => ?_⟩
    exact (good.apart o o' (Ne.symm other) pid).exit (allowed o')
  | tryRemoveZombie o pid =>
    refine ⟨_, rfl, good.update ((good.tracks o).tryRemoveZombie pid).2 fun o' other k => ?_⟩
    have before := good.apart o o' (Ne.symm other) k
    split_ifs
    · by_cases here : k = pid
      · subst here
        simpa using before.reap
      · simpa [Function.update_of_ne here] using before
    · exact before
  | tryRemoveZombieAny o =>
    refine ⟨_, rfl, ?_⟩
    rcases (good.tracks o).tryRemoveZombieAny with ⟨same, none⟩ | ⟨pid, isZombie, least, -, tracks'⟩
    · -- no zombie: nothing changes
      have unchanged : (sets o).tryRemoveZombieAny.2 = sets o := by rw [same]
      simp only [ChildCall.record, leastZombie_eq_none none, unchanged, Function.update_eq_self]
      exact good
    · simp only [ChildCall.record, leastZombie_eq_some isZombie least]
      exact good.updateAt tracks' fun o' other => (good.apart o o' (Ne.symm other) pid).reap
  | take o dst =>
    obtain ⟨distinct, idle⟩ := allowed
    -- the holder left behind is empty: its history classifies nothing
    have empty : (sets dst).isEmpty = true := by
      have tracks := good.tracks dst
      simp only [ChildrenSet.isEmpty, Bool.and_eq_true, beq_iff_eq]
      refine ⟨⟨OrdMap.size_eq_zero_of_get?_eq_none fun pid => ?_,
        OrdMap.size_eq_zero_of_get?_eq_none fun pid => ?_⟩,
        OrdMap.size_eq_zero_of_get?_eq_none fun pid => ?_⟩
      · simpa [(idle pid).1] using tracks.alive pid
      · simpa [(idle pid).2.1] using tracks.zombie pid
      · simpa [(idle pid).2.2] using tracks.pending pid
    have cleared := good.update (o := o) tracks_new fun _ _ _ => Events.idle_apart _
    refine ⟨Function.update (Function.update sets o new) dst (sets o),
      by simp [ChildCall.exec, empty, ChildrenSet.take], ?_⟩
    refine cleared.update (by simpa [Function.update_of_ne (Ne.symm distinct)] using good.tracks o)
      fun o' other pid => ?_
    by_cases here : o' = o
    · subst here
      simpa using (Events.idle_apart _).symm
    · simpa [Function.update_of_ne here] using good.apart o o' (Ne.symm here) pid
  | append o src =>
    obtain ⟨s', appended, tracks'⟩ :=
      (good.tracks o).append (good.tracks src) (good.apart o src allowed)
    have cleared := good.update (o := src) tracks_new fun _ _ _ => Events.idle_apart _
    refine ⟨_, by simp [ChildCall.exec, appended], cleared.update tracks' fun o' other pid => ?_⟩
    by_cases here : o' = src
    · subst here
      simpa using (Events.idle_apart _).symm
    · simpa [Function.update_of_ne here] using
        ((good.apart o o' (Ne.symm other) pid).merge (good.apart src o' (Ne.symm here) pid))

end Consistent

/-- One allowed call on the sets, with the history it adds. -/
inductive ChildStep {ι : Type} [DecidableEq ι] :
    (ι → ChildrenSet P) × (ι → Hist) → (ι → ChildrenSet P) × (ι → Hist) → Prop
  | call {sets hs sets'} (c : ChildCall ι P) (allowed : c.Allowed hs)
      (ran : c.exec sets = some sets') : ChildStep (sets, hs) (sets', c.record hs)

theorem Consistent.of_reachable {ι : Type} [DecidableEq ι]
    {s s' : (ι → ChildrenSet P) × (ι → Hist)} (good : Consistent s.1 s.2)
    (reach : Relation.ReflTransGen ChildStep s s') : Consistent s'.1 s'.2 := by
  induction reach with
  | refl => exact good
  | tail _ step ih =>
    obtain ⟨c, allowed, ran⟩ := step
    obtain ⟨sets', ran', good'⟩ := ih.exec allowed
    rw [ran] at ran'
    cases ran'
    exact good'

/-- Over every run of the children sets of a system in which no pid is pushed twice or
exits twice: a pid is in `alive` exactly when it was pushed and has not exited, in
`zombie` exactly when both happened and it was not reaped, and in `zombie_pending`
exactly when it exited unpushed, so the three never share a pid; no allowed call panics,
and `append` leaves `src` empty and `self` with the classification of both histories. -/
theorem childrenSet_classifies_history {ι : Type} [DecidableEq ι] {sets : ι → ChildrenSet P}
    {hs : ι → Hist}
    (reach : Relation.ReflTransGen ChildStep (fun _ => new, fun _ _ => .idle) (sets, hs)) :
    (∀ o pid,
      ((sets o).alive.get? pid).isSome = ((hs o pid).pushed && !(hs o pid).zombied) ∧
      ((sets o).zombie.get? pid).isSome =
        ((hs o pid).pushed && (hs o pid).zombied && !(hs o pid).removed) ∧
      ((sets o).zombiePending.get? pid).isSome = ((hs o pid).zombied && !(hs o pid).pushed) ∧
      ¬(((sets o).alive.get? pid).isSome ∧ ((sets o).zombie.get? pid).isSome) ∧
      ¬(((sets o).alive.get? pid).isSome ∧ ((sets o).zombiePending.get? pid).isSome) ∧
      ¬(((sets o).zombie.get? pid).isSome ∧ ((sets o).zombiePending.get? pid).isSome)) ∧
    (∀ c : ChildCall ι P, c.Allowed hs → ∃ sets', c.exec sets = some sets') ∧
    ∀ o src, o ≠ src → ∃ s', (sets o).append (sets src) = some (s', new) ∧
      s'.Tracks fun pid => (hs o pid).merge (hs src pid) := by
  have good : Consistent sets hs := Consistent.of_reachable consistent_new reach
  refine ⟨fun o pid => ?_, fun c allowed => ?_, fun o src distinct => ?_⟩
  · have tracks := good.tracks o
    exact ⟨tracks.alive pid, tracks.zombie pid, tracks.pending pid, tracks.disjoint pid⟩
  · obtain ⟨sets', ran, -⟩ := good.exec allowed
    exact ⟨sets', ran⟩
  · exact (good.tracks o).append (good.tracks src) (good.apart o src distinct)

/-- A child that exits before its parent registers it (`become_zombie`, then
`push_child`) ends in `zombie`. -/
theorem childrenSet_race_ends_zombie :
    ∃ sets : Bool → ChildrenSet Unit, ∃ hs,
      Relation.ReflTransGen ChildStep (fun _ => new, fun _ _ => .idle) (sets, hs) ∧
        ((sets true).zombie.get? 5).isSome = true := by
  have run : Relation.ReflTransGen ChildStep
      ((fun _ => new, fun _ _ => .idle) : (Bool → ChildrenSet Unit) × (Bool → Hist)) _ :=
    .tail (.single (.call (.becomeZombie true 5) (fun _ => rfl) rfl))
      (.call (.pushChild true 5 ()) (fun o => by cases o <;> rfl) rfl)
  refine ⟨_, _, run, ?_⟩
  rw [((childrenSet_classifies_history run).1 true 5).2.1]
  decide

end ChildrenSet

end FtlOs
