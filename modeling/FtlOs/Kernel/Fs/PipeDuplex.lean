import FtlOs.Kernel.Fs.Pipe
import FtlOs.Library.Run

/-!
# The reader and the writer at once

A pipe's reader and writer each hold their own `SleepMutex`, so one read and one
write run at the same time, on the same ring, with no lock in common.  A call
loads the cursors once, when it starts; each turn of its loop copies one slice
and stores its own cursor, and those stores are where the other side sees its
progress.  `Duplex` is the pipe with at most one read and one write in flight,
and `step` performs one event of either: a call starts, stores once, or
returns.  A list of events is any interleaving of the two sides.

Two logs are kept only for the proofs: `accepted`, the bytes the writer's
stores published, and `returned`, the bytes the finished reads returned.  The
invariant says the first is the second, then the bytes of the read in flight,
then the queue in the ring: nothing is lost, doubled or reordered.
-/

namespace FtlOs

namespace Pipe

/-- A `Pipe::read` call between two of its stores. -/
structure ReadCall where
  /-- `read_at` as the call loaded it. -/
  start : Nat
  /-- `len`: the bytes the call moves. -/
  len : Nat
  /-- `cur`: the bytes moved so far. -/
  cur : Nat
  /-- `buffer[..cur]`: the bytes copied out so far. -/
  out : List UInt8

/-- A `Pipe::write` call between two of its stores. -/
structure WriteCall where
  /-- `write_at` as the call loaded it. -/
  start : Nat
  /-- `len`: the bytes the call moves. -/
  len : Nat
  /-- `cur`: the bytes moved so far. -/
  cur : Nat
  /-- The caller's buffer. -/
  buf : List UInt8

/-- What the reader or the writer does next. -/
inductive Event where
  /-- `read` into a buffer of `outLen` bytes starts. -/
  | readCall (outLen : Nat)
  /-- The read in flight copies a slice and stores `read_at`. -/
  | readStore
  /-- The read in flight returns. -/
  | readReturn
  /-- `write` of `buf` starts. -/
  | writeCall (buf : List UInt8)
  /-- The write in flight copies a slice and stores `write_at`. -/
  | writeStore
  /-- The write in flight returns. -/
  | writeReturn

/-- A pipe with the calls in flight on it. -/
structure Duplex where
  pipe : Pipe
  reading : Option ReadCall
  writing : Option WriteCall
  /-- The bytes the finished reads returned, oldest first. -/
  returned : List UInt8
  /-- The bytes the writer's stores published, oldest first. -/
  accepted : List UInt8

namespace Duplex

/-- `make_pipe`: a new pipe, with no call on it. -/
def init (frames : Nat → UInt8) : Duplex := ⟨new frames, none, none, [], []⟩

/-- One event.  `none` when the event cannot happen (a second read while one is
in flight, which the reader's mutex holds back) or when the call panics. -/
def step (s : Duplex) : Event → Option Duplex
  | .readCall outLen =>
      match s.reading with
      | some _ => none
      | none =>
          let len := min outLen s.pipe.maxRead
          -- `assert!(len != 0)`
          if len = 0 then none
          else some { s with reading := some ⟨s.pipe.readAt, len, 0, []⟩ }
  | .readStore =>
      match s.reading with
      | none => none
      | some c =>
          if c.cur < c.len then
            let (cur', bytes, p') := readTurn c.start c.len c.cur s.pipe
            some { s with pipe := p', reading := some { c with cur := cur', out := c.out ++ bytes } }
          else none
  | .readReturn =>
      match s.reading with
      | none => none
      | some c =>
          -- `assert!(cur == len)`
          if c.cur = c.len then some { s with reading := none, returned := s.returned ++ c.out }
          else none
  | .writeCall buf =>
      match s.writing with
      | some _ => none
      | none =>
          let len := min buf.length s.pipe.maxWrite
          -- `assert!(len != 0)`
          if len = 0 then none
          else some { s with writing := some ⟨s.pipe.writeAt, len, 0, buf⟩ }
  | .writeStore =>
      match s.writing with
      | none => none
      | some c =>
          if c.cur < c.len then
            let (cur', p') := writeTurn c.start c.len c.cur c.buf s.pipe
            -- the store publishes `buf[cur..cur']`
            some { s with
              pipe := p'
              writing := some { c with cur := cur' }
              accepted := s.accepted ++ (c.buf.drop c.cur).take (cur' - c.cur) }
          else none
  | .writeReturn =>
      match s.writing with
      | none => none
      | some c =>
          -- `assert!(cur == len)`
          if c.cur = c.len then some { s with writing := none } else none

/-- The bytes the read in flight has copied out. -/
def inFlight (s : Duplex) : List UInt8 :=
  match s.reading with
  | some c => c.out
  | none => []

/-- What holds between events. -/
structure Inv (s : Duplex) : Prop where
  valid : s.pipe.Valid
  /-- Everything published is returned, in flight or still queued, in order. -/
  fifo : s.accepted = s.returned ++ s.inFlight ++ s.pipe.contents
  /-- The read in flight sits on `read_at`, and what it has yet to move is queued. -/
  reader : ∀ c, s.reading = some c → c.cur ≤ c.len ∧ c.out.length = c.cur ∧
    (c.start + c.cur) % ringSize = s.pipe.readAt ∧ c.len - c.cur ≤ s.pipe.maxRead
  /-- The write in flight sits on `write_at`, has room for what it has yet to
  move, and has published its buffer's first `cur` bytes last. -/
  writer : ∀ c, s.writing = some c → c.cur ≤ c.len ∧ c.len ≤ c.buf.length ∧
    (c.start + c.cur) % ringSize = s.pipe.writeAt ∧ c.len - c.cur ≤ s.pipe.maxWrite ∧
    c.buf.take c.cur <:+ s.accepted

variable {s s' : Duplex}

/-! ## What each event does -/

theorem step_readCall {outLen : Nat} (stepped : s.step (.readCall outLen) = some s') :
    s.reading = none ∧ 0 < min outLen s.pipe.maxRead ∧
      s' = { s with reading := some ⟨s.pipe.readAt, min outLen s.pipe.maxRead, 0, []⟩ } := by
  cases reading : s.reading with
  | some c => simp [step, reading] at stepped
  | none =>
    simp only [step, reading] at stepped
    by_cases zero : min outLen s.pipe.maxRead = 0
    · simp [zero] at stepped
    rw [if_neg zero, Option.some.injEq] at stepped
    exact ⟨rfl, Nat.pos_of_ne_zero zero, stepped.symm⟩

theorem step_readStore (stepped : s.step .readStore = some s') :
    ∃ c cur' bytes p', s.reading = some c ∧ c.cur < c.len ∧
      readTurn c.start c.len c.cur s.pipe = (cur', bytes, p') ∧
      s' = { s with pipe := p', reading := some { c with cur := cur', out := c.out ++ bytes } } := by
  cases reading : s.reading with
  | none => simp [step, reading] at stepped
  | some c =>
    simp only [step, reading] at stepped
    by_cases left : c.cur < c.len
    · rcases turn : readTurn c.start c.len c.cur s.pipe with ⟨cur', bytes, p'⟩
      rw [if_pos left, turn, Option.some.injEq] at stepped
      exact ⟨c, cur', bytes, p', rfl, left, turn, stepped.symm⟩
    · simp [left] at stepped

theorem step_readReturn (stepped : s.step .readReturn = some s') :
    ∃ c, s.reading = some c ∧ c.cur = c.len ∧
      s' = { s with reading := none, returned := s.returned ++ c.out } := by
  cases reading : s.reading with
  | none => simp [step, reading] at stepped
  | some c =>
    simp only [step, reading] at stepped
    by_cases done : c.cur = c.len
    · rw [if_pos done, Option.some.injEq] at stepped
      exact ⟨c, rfl, done, stepped.symm⟩
    · simp [done] at stepped

theorem step_writeCall {buf : List UInt8} (stepped : s.step (.writeCall buf) = some s') :
    s.writing = none ∧ 0 < min buf.length s.pipe.maxWrite ∧
      s' = { s with writing := some ⟨s.pipe.writeAt, min buf.length s.pipe.maxWrite, 0, buf⟩ } := by
  cases writing : s.writing with
  | some c => simp [step, writing] at stepped
  | none =>
    simp only [step, writing] at stepped
    by_cases zero : min buf.length s.pipe.maxWrite = 0
    · simp [zero] at stepped
    rw [if_neg zero, Option.some.injEq] at stepped
    exact ⟨rfl, Nat.pos_of_ne_zero zero, stepped.symm⟩

theorem step_writeStore (stepped : s.step .writeStore = some s') :
    ∃ c cur' p', s.writing = some c ∧ c.cur < c.len ∧
      writeTurn c.start c.len c.cur c.buf s.pipe = (cur', p') ∧
      s' = { s with
        pipe := p'
        writing := some { c with cur := cur' }
        accepted := s.accepted ++ (c.buf.drop c.cur).take (cur' - c.cur) } := by
  cases writing : s.writing with
  | none => simp [step, writing] at stepped
  | some c =>
    simp only [step, writing] at stepped
    by_cases left : c.cur < c.len
    · rcases turn : writeTurn c.start c.len c.cur c.buf s.pipe with ⟨cur', p'⟩
      rw [if_pos left, turn, Option.some.injEq] at stepped
      exact ⟨c, cur', p', rfl, left, turn, stepped.symm⟩
    · simp [left] at stepped

theorem step_writeReturn (stepped : s.step .writeReturn = some s') :
    ∃ c, s.writing = some c ∧ c.cur = c.len ∧ s' = { s with writing := none } := by
  cases writing : s.writing with
  | none => simp [step, writing] at stepped
  | some c =>
    simp only [step, writing] at stepped
    by_cases done : c.cur = c.len
    · rw [if_pos done, Option.some.injEq] at stepped
      exact ⟨c, rfl, done, stepped.symm⟩
    · simp [done] at stepped

/-! ## The invariant -/

theorem inv_init (frames : Nat → UInt8) : (init frames).Inv where
  valid := valid_new frames
  fifo := by simp [init, inFlight, contents_new]
  reader := by simp [init]
  writer := by simp [init]

theorem Inv.readCall {outLen : Nat} (inv : s.Inv) (stepped : s.step (.readCall outLen) = some s') :
    s'.Inv := by
  obtain ⟨idle, -, rfl⟩ := step_readCall stepped
  refine ⟨inv.valid, ?_, ?_, inv.writer⟩
  · simpa [inFlight, idle] using inv.fifo
  · rintro c ⟨⟩
    exact ⟨Nat.zero_le _, rfl, Nat.mod_eq_of_lt inv.valid.readBelow, by simp⟩

theorem Inv.readStore (inv : s.Inv) (stepped : s.step .readStore = some s') : s'.Inv := by
  obtain ⟨c, cur', bytes, p', reading, left, turn, rfl⟩ := step_readStore stepped
  obtain ⟨-, length, atCursor, ready⟩ := inv.reader c reading
  obtain ⟨k, -, below, turnEq⟩ := readTurn_eq atCursor left ready
  rw [turnEq, Prod.mk.injEq, Prod.mk.injEq] at turn
  obtain ⟨rfl, rfl, rfl⟩ := turn
  have readable : k ≤ s.pipe.maxRead := by omega
  obtain ⟨valid', moved, freed, contents'⟩ := advanceRead inv.valid readable
  refine ⟨valid', ?_, ?_, ?_⟩
  · -- the slice leaves the front of the queue for the end of the call's bytes
    have fifo := inv.fifo
    simp only [inFlight, reading] at fifo
    simp only [inFlight, contents', fifo, List.append_assoc, List.take_append_drop]
  · rintro c' ⟨⟩
    dsimp only
    refine ⟨by omega, by simp [length, readable], advance_cursor atCursor, ?_⟩
    rw [moved]
    omega
  · intro w writing
    obtain ⟨le, within, atCursorW, room, published⟩ := inv.writer w writing
    refine ⟨le, within, atCursorW, ?_, published⟩
    rw [freed]
    omega

theorem Inv.readReturn (inv : s.Inv) (stepped : s.step .readReturn = some s') : s'.Inv := by
  obtain ⟨c, reading, -, rfl⟩ := step_readReturn stepped
  refine ⟨inv.valid, ?_, by simp, inv.writer⟩
  have fifo := inv.fifo
  simp only [inFlight, reading] at fifo
  simp [inFlight, fifo]

theorem Inv.writeCall {buf : List UInt8} (inv : s.Inv) (stepped : s.step (.writeCall buf) = some s') :
    s'.Inv := by
  obtain ⟨-, -, rfl⟩ := step_writeCall stepped
  refine ⟨inv.valid, inv.fifo, inv.reader, ?_⟩
  rintro c ⟨⟩
  exact ⟨Nat.zero_le _, min_le_left _ _, Nat.mod_eq_of_lt inv.valid.writeBelow, by simp,
    by simp⟩

theorem Inv.writeStore (inv : s.Inv) (stepped : s.step .writeStore = some s') : s'.Inv := by
  obtain ⟨c, cur', p', writing, left, turn, rfl⟩ := step_writeStore stepped
  obtain ⟨-, within, atCursor, room, published⟩ := inv.writer c writing
  obtain ⟨k, -, below, fits, turnEq⟩ := writeTurn_eq c.buf atCursor left
  rw [turnEq, Prod.mk.injEq] at turn
  obtain ⟨rfl, rfl⟩ := turn
  have writable : k ≤ s.pipe.maxWrite := by omega
  obtain ⟨valid', grown, shrunk, contents'⟩ :=
    advanceWrite (fun j => c.buf.getD (c.cur + j) 0) inv.valid writable fits fun _ => rfl
  -- the store publishes exactly the slice it copied into the ring
  have piece : (c.buf.drop c.cur).take (c.cur + k - c.cur) =
      (List.range k).map fun j => c.buf.getD (c.cur + j) 0 := by
    rw [Nat.add_sub_cancel_left, range_map_getD (by omega)]
  refine ⟨valid', ?_, ?_, ?_⟩
  · simp only [inFlight, piece, contents', inv.fifo, List.append_assoc]
  · intro r reading
    obtain ⟨le, length, atCursorR, ready⟩ := inv.reader r reading
    refine ⟨le, length, atCursorR, ?_⟩
    rw [grown]
    omega
  · rintro c' ⟨⟩
    dsimp only
    refine ⟨by omega, within, advance_cursor atCursor, ?_, ?_⟩
    · rw [shrunk]
      omega
    · obtain ⟨before, published⟩ := published
      refine ⟨before, ?_⟩
      rw [List.take_add, ← published, List.append_assoc, Nat.add_sub_cancel_left]

theorem Inv.writeReturn (inv : s.Inv) (stepped : s.step .writeReturn = some s') : s'.Inv := by
  obtain ⟨c, -, -, rfl⟩ := step_writeReturn stepped
  exact ⟨inv.valid, inv.fifo, inv.reader, by simp⟩

/-- Every event keeps the invariant. -/
theorem Inv.step {e : Event} (inv : s.Inv) (stepped : s.step e = some s') : s'.Inv := by
  cases e with
  | readCall outLen => exact inv.readCall stepped
  | readStore => exact inv.readStore stepped
  | readReturn => exact inv.readReturn stepped
  | writeCall buf => exact inv.writeCall stepped
  | writeStore => exact inv.writeStore stepped
  | writeReturn => exact inv.writeReturn stepped

/-- Every interleaving of reads and writes on a new pipe keeps the invariant. -/
theorem inv_of_run {frames : Nat → UInt8} {events : List Event}
    (ran : Run.run step (init frames) events = some s) : s.Inv :=
  @Run.invariant_of_run Duplex Event step Inv (fun _ => True)
    (fun _ _ _ inv _ stepped => inv.step stepped) events _ _ (inv_init frames)
    (fun _ _ => trivial) ran

/-- A read in flight never stalls and never panics: while it has bytes to move
its next store can happen, and once it has moved them all it can return. -/
theorem Inv.reader_moves {c : ReadCall} (inv : s.Inv) (reading : s.reading = some c) :
    (c.cur < c.len ∧ (s.step .readStore).isSome) ∨
      (c.cur = c.len ∧ (s.step .readReturn).isSome) := by
  obtain ⟨le, -⟩ := inv.reader c reading
  by_cases left : c.cur < c.len
  · exact .inl ⟨left, by simp [Duplex.step, reading, left]⟩
  · have done : c.cur = c.len := by omega
    exact .inr ⟨done, by simp [Duplex.step, reading, done]⟩

/-- A write in flight never stalls and never panics either. -/
theorem Inv.writer_moves {c : WriteCall} (inv : s.Inv) (writing : s.writing = some c) :
    (c.cur < c.len ∧ (s.step .writeStore).isSome) ∨
      (c.cur = c.len ∧ (s.step .writeReturn).isSome) := by
  obtain ⟨le, -⟩ := inv.writer c writing
  by_cases left : c.cur < c.len
  · exact .inl ⟨left, by simp [Duplex.step, writing, left]⟩
  · have done : c.cur = c.len := by omega
    exact .inr ⟨done, by simp [Duplex.step, writing, done]⟩

end Duplex

/-! ## A lossless queue -/

/-- The pipe between its one reader and its one writer is a lossless FIFO.  In
every interleaving of reads and writes on a new pipe, one cell of the ring stays
free; the bytes the writer's stores published are the bytes the reads returned,
then the bytes of the read in flight, then the queue; a call in flight has its
bytes ready, has published what it copied, and never stalls.  Each nonempty
`read` and `write` moves `min` of its request and what the ring holds or has room
for, and `read_fast` and `write_fast` either return `EAGAIN` or move the whole
request. -/
theorem pipe_lossless_fifo :
    (∀ (frames : Nat → UInt8) (events : List Event) (s : Duplex),
      Run.run Duplex.step (Duplex.init frames) events = some s →
        s.pipe.maxRead + s.pipe.maxWrite = ringSize - 1 ∧
        s.accepted = s.returned ++ s.inFlight ++ s.pipe.contents ∧
        (∀ c, s.reading = some c → c.out.length = c.cur ∧ c.len - c.cur ≤ s.pipe.maxRead ∧
          ((c.cur < c.len ∧ (s.step .readStore).isSome) ∨
            (c.cur = c.len ∧ (s.step .readReturn).isSome))) ∧
        (∀ c, s.writing = some c → c.len ≤ c.buf.length ∧ c.len - c.cur ≤ s.pipe.maxWrite ∧
          c.buf.take c.cur <:+ s.accepted ∧
          ((c.cur < c.len ∧ (s.step .writeStore).isSome) ∨
            (c.cur = c.len ∧ (s.step .writeReturn).isSome)))) ∧
    (∀ p : Pipe, p.Valid → ∀ buf : List UInt8, 0 < buf.length → 0 < p.maxWrite →
      ∃ q, p.write buf = some (min buf.length p.maxWrite, q) ∧ q.Valid ∧
        q.contents = p.contents ++ buf.take (min buf.length p.maxWrite)) ∧
    (∀ p : Pipe, p.Valid → ∀ outLen : Nat, 0 < outLen → 0 < p.maxRead →
      ∃ q, p.read outLen = some (min outLen p.maxRead, p.contents.take (min outLen p.maxRead), q) ∧
        q.Valid ∧ q.contents = p.contents.drop (min outLen p.maxRead)) ∧
    (∀ p : Pipe, p.Valid → ∀ (outLen : Nat) (locked : Bool), ∃ r q,
      p.readFast outLen locked = some (r, q) ∧
        (r = .error .EAGAIN ∨
          (r = .ok (outLen, p.contents.take outLen) ∧ q.contents = p.contents.drop outLen))) ∧
    (∀ p : Pipe, p.Valid → ∀ (buf : List UInt8) (locked : Bool), ∃ r q,
      p.writeFast buf locked = some (r, q) ∧
        (r = .error .EAGAIN ∨ (r = .ok buf.length ∧ q.contents = p.contents ++ buf))) := by
  refine ⟨fun frames events s ran => ?_, fun p valid buf nonempty room => ?_,
    fun p valid outLen nonempty ready => ?_, fun p valid outLen locked => ?_,
    fun p valid buf locked => ?_⟩
  · -- every interleaving: the invariant of the reachable states
    have inv := Duplex.inv_of_run ran
    refine ⟨maxRead_add_maxWrite inv.valid, inv.fifo, fun c reading => ?_, fun c writing => ?_⟩
    · obtain ⟨-, length, -, ready⟩ := inv.reader c reading
      exact ⟨length, ready, inv.reader_moves reading⟩
    · obtain ⟨-, within, -, room, published⟩ := inv.writer c writing
      exact ⟨within, room, published, inv.writer_moves writing⟩
  · obtain ⟨q, written, validQ, -, -, contentsQ⟩ :=
      write_eq valid (show 0 < min buf.length p.maxWrite by omega)
    exact ⟨q, written, validQ, contentsQ⟩
  · obtain ⟨validQ, -, -, contentsQ⟩ := advanceRead valid (min_le_right outLen p.maxRead)
    exact ⟨_, read_eq valid (by omega), validQ, contentsQ⟩
  · obtain ⟨r, q, fast, ⟨refused, -⟩ | ⟨served, -, contentsQ⟩⟩ := readFast_spec outLen locked valid
    · exact ⟨r, q, fast, .inl refused⟩
    · exact ⟨r, q, fast, .inr ⟨served, contentsQ⟩⟩
  · obtain ⟨r, q, fast, ⟨refused, -⟩ | ⟨served, -, contentsQ⟩⟩ := writeFast_spec buf locked valid
    · exact ⟨r, q, fast, .inl refused⟩
    · exact ⟨r, q, fast, .inr ⟨served, contentsQ⟩⟩

/-- Three bytes written in one store, two of them read back while the write has
yet to return: the reads returned a prefix of what the writer published. -/
theorem pipe_lossless_fifo_sample :
    ∃ s, Run.run Duplex.step (Duplex.init fun _ => 0)
        [.writeCall [1, 2, 3], .writeStore, .readCall 2, .readStore, .readReturn] = some s ∧
      s.returned = [1, 2] ∧ s.accepted = s.returned ++ s.inFlight ++ s.pipe.contents := by
  -- the run is evaluated by the kernel: the elaborator unfolds `Nat.ble` in unary
  obtain ⟨s, ran⟩ : ∃ s, Run.run Duplex.step (Duplex.init fun _ => 0)
      [.writeCall [1, 2, 3], .writeStore, .readCall 2, .readStore, .readReturn] = some s :=
    Option.isSome_iff_exists.mp (by decide +kernel)
  have returned : (Run.run Duplex.step (Duplex.init fun _ => 0)
      [.writeCall [1, 2, 3], .writeStore, .readCall 2, .readStore, .readReturn]).map
        Duplex.returned = some [1, 2] := by decide +kernel
  rw [ran, Option.map_some, Option.some.injEq] at returned
  exact ⟨s, ran, returned, (pipe_lossless_fifo.1 _ _ _ ran).2.1⟩

/-- A new pipe has room for a write, yet `write` of an empty buffer panics at
`assert!(len != 0)` instead of moving no bytes. -/
theorem write_empty_buffer_panics :
    0 < (new fun _ => 0).maxWrite ∧ (new fun _ => 0).write [] = none :=
  ⟨by decide, write_nil _⟩

end Pipe

end FtlOs
