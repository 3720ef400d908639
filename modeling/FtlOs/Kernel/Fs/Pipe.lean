import FtlOs.Library.Ring
import FtlOs.Util.Error
import FtlOs.Kernel.Config

/-!
# The pipe's ring buffer

`fs/pipe.rs` keeps a pipe's bytes in a ring of four pages with two cursors:
`read_at`, which only the reader moves, and `write_at`, which only the writer
moves.  The cells from `read_at` up to `write_at` hold the bytes written and
not yet read.  One cell always stays free, so that a full ring and an empty one
differ.  `read` and `write` move their bytes one page slice at a time and store
the moved cursor after each slice.

The model keeps the four frames as one function from ring positions to bytes.
The wake-up closures the loops call are left out: they wake tasks and change
nothing in the ring.
-/

namespace FtlOs

/-- `RING_PAGE`. -/
def ringPage : Nat := 4

/-- `RING_SIZE`. -/
def ringSize : Nat := ringPage * pageSize

theorem ringSize_eq : ringSize = 16384 := rfl

/-- `Pipe`. -/
structure Pipe where
  /-- The four frames of `buffer`, as the byte at each position of the ring. -/
  buffer : Nat → UInt8
  /-- `read_at`. -/
  readAt : Nat
  /-- `write_at`. -/
  writeAt : Nat

namespace Pipe

/-- `Pipe::new`: the frames as allocated, both cursors at zero. -/
def new (frames : Nat → UInt8) : Pipe := ⟨frames, 0, 0⟩

/-- `Pipe::max_read`. -/
def maxRead (p : Pipe) : Nat := (p.writeAt + ringSize - p.readAt) % ringSize

/-- `Pipe::max_write`. -/
def maxWrite (p : Pipe) : Nat := (p.readAt + ringSize - 1 - p.writeAt) % ringSize

/-- `Pipe::can_read`. -/
def canRead (p : Pipe) : Bool := p.maxRead != 0

/-- `Pipe::can_write`. -/
def canWrite (p : Pipe) : Bool := p.maxWrite != 0

/-- `Pipe::get_range`: the ring position of `offset` and the length of the
slice from it, at most `len` bytes and not past the end of its page. -/
def getRange (offset len : Nat) : Nat × Nat :=
  let n := offset % ringSize / pageSize
  let i := offset % pageSize
  let stop := min (i + len) pageSize
  (n * pageSize + i, stop - i)

/-! ## `read` and `write` -/

/-- One turn of the loop of `Pipe::read`, in a call that loaded `read_at` as
`start` and moves `len` bytes: copy out the slice at `start + cur` and store
the moved `read_at`.  Returns the new `cur`, the bytes copied and the pipe. -/
def readTurn (start len cur : Nat) (p : Pipe) : Nat × List UInt8 × Pipe :=
  let (pos, n) := getRange (start + cur) (len - cur)
  (cur + n, (List.range n).map (fun j => p.buffer (pos + j)),
    { p with readAt := (start + cur + n) % ringSize })

/-- The loop of `Pipe::read` from `cur` on, with the bytes copied so far, for at
most `fuel` turns. -/
def readLoop (start len : Nat) : Nat → Nat → List UInt8 → Pipe → Option (List UInt8 × Pipe)
  | fuel, cur, out, p =>
      if cur < len then
        match fuel with
        | 0 => none
        | fuel + 1 =>
            let (cur', bytes, p') := readTurn start len cur p
            readLoop start len fuel cur' (out ++ bytes) p'
      -- `assert!(cur == len)`
      else if cur = len then some (out, p) else none

/-- `Pipe::read` into a buffer of `outLen` bytes: it moves `min(outLen,
max_read)` bytes, which must not be zero, and returns their count and the
bytes. -/
def read (outLen : Nat) (p : Pipe) : Option (Nat × List UInt8 × Pipe) :=
  let len := min outLen p.maxRead
  -- `assert!(len != 0)`
  if len = 0 then none
  else (readLoop p.readAt len len 0 [] p).map fun (out, p') => (len, out, p')

/-- One turn of the loop of `Pipe::write` of `buf`, in a call that loaded
`write_at` as `start` and moves `len` bytes: copy `buf[cur..]` into the slice at
`start + cur` and store the moved `write_at`. -/
def writeTurn (start len cur : Nat) (buf : List UInt8) (p : Pipe) : Nat × Pipe :=
  let (pos, n) := getRange (start + cur) (len - cur)
  (cur + n, { p with
    buffer := fun q => if pos ≤ q ∧ q < pos + n then buf.getD (cur + (q - pos)) 0 else p.buffer q
    writeAt := (start + cur + n) % ringSize })

/-- The loop of `Pipe::write` from `cur` on, for at most `fuel` turns. -/
def writeLoop (start len : Nat) (buf : List UInt8) : Nat → Nat → Pipe → Option Pipe
  | fuel, cur, p =>
      if cur < len then
        match fuel with
        | 0 => none
        | fuel + 1 =>
            let (cur', p') := writeTurn start len cur buf p
            writeLoop start len buf fuel cur' p'
      -- `assert!(cur == len)`
      else if cur = len then some p else none

/-- `Pipe::write` of `buf`: it moves `min(|buf|, max_write)` bytes, which must
not be zero, and returns their count. -/
def write (buf : List UInt8) (p : Pipe) : Option (Nat × Pipe) :=
  let len := min buf.length p.maxWrite
  -- `assert!(len != 0)`
  if len = 0 then none
  else (writeLoop p.writeAt len buf len 0 p).map fun p' => (len, p')

/-- `PipeReader::read_fast` into a buffer of `outLen` bytes; `locked` is whether
`try_lock` of the reader's mutex succeeds. -/
def readFast (outLen : Nat) (locked : Bool) (p : Pipe) :
    Option (SysR (Nat × List UInt8) × Pipe) :=
  if outLen = 0 then some (.ok (0, []), p)
  else if p.maxRead < outLen then some (.error .EAGAIN, p)
  else if !locked then some (.error .EAGAIN, p)
  -- the source tests `max_write` here, not `max_read`
  else if p.maxWrite < outLen then some (.error .EAGAIN, p)
  else (p.read outLen).map fun (n, out, p') => (.ok (n, out), p')

/-- `PipeWriter::write_fast` of `buf`; `locked` is whether `try_lock` of the
writer's mutex succeeds. -/
def writeFast (buf : List UInt8) (locked : Bool) (p : Pipe) : Option (SysR Nat × Pipe) :=
  if buf.length = 0 then some (.ok 0, p)
  else if p.maxWrite < buf.length then some (.error .EAGAIN, p)
  else if !locked then some (.error .EAGAIN, p)
  else if p.maxWrite < buf.length then some (.error .EAGAIN, p)
  else (p.write buf).map fun (n, p') => (.ok n, p')

/-! ## The queue a pipe holds -/

/-- Both cursors lie in the ring. -/
structure Valid (p : Pipe) : Prop where
  readBelow : p.readAt < ringSize
  writeBelow : p.writeAt < ringSize

/-- The bytes written and not yet read, oldest first. -/
def contents (p : Pipe) : List UInt8 := Ring.window p.buffer ringSize p.readAt p.maxRead

theorem valid_new (frames : Nat → UInt8) : (new frames).Valid :=
  ⟨show 0 < ringSize by decide, show 0 < ringSize by decide⟩

theorem contents_new (frames : Nat → UInt8) : (new frames).contents = [] := by
  simp [contents, maxRead, new, Ring.window]

/-- One cell of the ring is always free: the readable and the writable bytes
add up to one less than the ring. -/
theorem maxRead_add_maxWrite {p : Pipe} (valid : p.Valid) :
    p.maxRead + p.maxWrite = ringSize - 1 := by
  have readBelow := valid.readBelow
  have writeBelow := valid.writeBelow
  simp only [maxRead, maxWrite, ringSize_eq] at *
  omega

/-- The slice `get_range` picks starts at the ring position of `offset`, is not
empty and stays inside the ring. -/
theorem getRange_spec (offset len : Nat) (positive : 0 < len) :
    (getRange offset len).1 = offset % ringSize ∧ 0 < (getRange offset len).2 ∧
      (getRange offset len).2 ≤ len ∧ offset % ringSize + (getRange offset len).2 ≤ ringSize := by
  simp only [getRange, ringSize_eq, pageSize]
  omega

/-! ## Moving the cursors -/

section Cursors

variable {p : Pipe}

@[simp] theorem length_contents (p : Pipe) : p.contents.length = p.maxRead := Ring.length_window

/-- A call's position `start + cur` stays on its cursor as both move on. -/
theorem advance_cursor {start cur pos k : Nat} (atCursor : (start + cur) % ringSize = pos) :
    (start + (cur + k)) % ringSize = (pos + k) % ringSize := by
  rw [← Nat.add_assoc, ← Nat.mod_add_mod, atCursor]

/-- `write_at` lies `max_read` cells after `read_at`. -/
theorem writeAt_eq (valid : p.Valid) : p.writeAt = (p.readAt + p.maxRead) % ringSize := by
  have readBelow := valid.readBelow
  have writeBelow := valid.writeBelow
  simp only [maxRead, ringSize_eq] at *
  omega

/-- Storing `read_at` moved over `k` readable bytes takes them off the front of
the queue, and frees their cells for the writer. -/
theorem advanceRead {k : Nat} (valid : p.Valid) (le : k ≤ p.maxRead) :
    ({ p with readAt := (p.readAt + k) % ringSize } : Pipe).Valid ∧
      ({ p with readAt := (p.readAt + k) % ringSize } : Pipe).maxRead = p.maxRead - k ∧
      ({ p with readAt := (p.readAt + k) % ringSize } : Pipe).maxWrite = p.maxWrite + k ∧
      ({ p with readAt := (p.readAt + k) % ringSize } : Pipe).contents = p.contents.drop k := by
  have readBelow : p.readAt < 16384 := valid.readBelow
  have writeBelow : p.writeAt < 16384 := valid.writeBelow
  have moved : ({ p with readAt := (p.readAt + k) % ringSize } : Pipe).maxRead = p.maxRead - k := by
    simp only [maxRead, ringSize_eq] at le ⊢
    omega
  refine ⟨⟨Nat.mod_lt _ (by decide), writeBelow⟩, moved, ?_, ?_⟩
  · simp only [maxRead, maxWrite, ringSize_eq] at le ⊢
    omega
  · simp only [contents, moved, Ring.window_mod, Ring.drop_window le]

/-- Storing `write_at` moved over `k` writable cells that the writer has filled
from `data`, without passing the end of the ring, appends them to the queue. -/
theorem advanceWrite {k : Nat} (data : Nat → UInt8) {cells : Nat → UInt8} (valid : p.Valid)
    (le : k ≤ p.maxWrite) (fits : p.writeAt + k ≤ ringSize)
    (written : ∀ q, cells q =
      if p.writeAt ≤ q ∧ q < p.writeAt + k then data (q - p.writeAt) else p.buffer q) :
    ({ p with buffer := cells, writeAt := (p.writeAt + k) % ringSize } : Pipe).Valid ∧
      ({ p with buffer := cells, writeAt := (p.writeAt + k) % ringSize } : Pipe).maxRead =
        p.maxRead + k ∧
      ({ p with buffer := cells, writeAt := (p.writeAt + k) % ringSize } : Pipe).maxWrite =
        p.maxWrite - k ∧
      ({ p with buffer := cells, writeAt := (p.writeAt + k) % ringSize } : Pipe).contents =
        p.contents ++ (List.range k).map data := by
  have readBelow : p.readAt < 16384 := valid.readBelow
  have writeBelow : p.writeAt < 16384 := valid.writeBelow
  have spare := maxRead_add_maxWrite valid
  have moved : ({ p with buffer := cells, writeAt := (p.writeAt + k) % ringSize } : Pipe).maxRead =
      p.maxRead + k := by
    simp only [maxRead, maxWrite, ringSize_eq] at le spare ⊢
    omega
  refine ⟨⟨readBelow, Nat.mod_lt _ (by decide)⟩, moved, ?_, ?_⟩
  · simp only [maxRead, maxWrite, ringSize_eq] at le spare ⊢
    omega
  · rw [contents, moved]
    exact Ring.window_write (by decide) (by omega) (writeAt_eq valid) fits written

end Cursors

/-! ## One slice, then the loops -/

section Slices

variable {p : Pipe} {start len cur : Nat}

/-- A turn of `read`'s loop copies out the front `k` bytes of the queue, for some
`k` between one and what is left to read, and stores `read_at` past them. -/
theorem readTurn_eq (atCursor : (start + cur) % ringSize = p.readAt)
    (left : cur < len) (ready : len - cur ≤ p.maxRead) :
    ∃ k, 0 < k ∧ k ≤ len - cur ∧ readTurn start len cur p =
      (cur + k, p.contents.take k, { p with readAt := (p.readAt + k) % ringSize }) := by
  obtain ⟨posEq, positive, le, fits⟩ := getRange_spec (start + cur) (len - cur) (by omega)
  rcases range : getRange (start + cur) (len - cur) with ⟨pos, k⟩
  rw [range] at posEq positive le fits
  dsimp only at posEq positive le fits
  rw [atCursor] at posEq fits
  subst posEq
  refine ⟨k, positive, le, ?_⟩
  simp only [readTurn, range, Prod.mk.injEq, true_and]
  constructor
  · -- the slice lies before the end of the ring, so no cell of it wraps
    rw [contents, Ring.take_window (by omega), Ring.window]
    refine List.map_congr_left fun j member => ?_
    rw [Nat.mod_eq_of_lt (by have := List.mem_range.mp member; omega)]
  · rw [← atCursor, Nat.mod_add_mod]

/-- A turn of `write`'s loop copies `buf[cur..cur + k]` into the `k` cells after
the queue, for some `k` between one and what is left to write, and stores
`write_at` past them. -/
theorem writeTurn_eq (buf : List UInt8) (atCursor : (start + cur) % ringSize = p.writeAt)
    (left : cur < len) :
    ∃ k, 0 < k ∧ k ≤ len - cur ∧ p.writeAt + k ≤ ringSize ∧ writeTurn start len cur buf p =
      (cur + k, { p with
        buffer := fun q => if p.writeAt ≤ q ∧ q < p.writeAt + k then
          buf.getD (cur + (q - p.writeAt)) 0 else p.buffer q
        writeAt := (p.writeAt + k) % ringSize }) := by
  obtain ⟨posEq, positive, le, fits⟩ := getRange_spec (start + cur) (len - cur) (by omega)
  rcases range : getRange (start + cur) (len - cur) with ⟨pos, k⟩
  rw [range] at posEq positive le fits
  dsimp only at posEq positive le fits
  rw [atCursor] at posEq fits
  subst posEq
  refine ⟨k, positive, le, fits, ?_⟩
  simp only [writeTurn, range, ← atCursor, Nat.mod_add_mod]

/-- The bytes a write turn takes from `buf` are the slice `buf[cur..cur + k]`. -/
theorem range_map_getD {buf : List UInt8} {k : Nat} (within : cur + k ≤ buf.length) :
    (List.range k).map (fun j => buf.getD (cur + j) 0) = (buf.drop cur).take k := by
  refine List.ext_getElem (by simp; omega) fun j inMap _ => ?_
  have below : cur + j < buf.length := by simp at inMap; omega
  simp [List.getElem?_eq_getElem below]

/-- `readLoop` with cells `cur..len` left: it finishes, having copied out the
front `len - cur` bytes of the queue and moved `read_at` past them. -/
theorem readLoop_eq (fuel : Nat) {out : List UInt8} (valid : p.Valid)
    (atCursor : (start + cur) % ringSize = p.readAt) (le : cur ≤ len)
    (ready : len - cur ≤ p.maxRead) (enough : len - cur ≤ fuel) :
    readLoop start len fuel cur out p = some (out ++ p.contents.take (len - cur),
      { p with readAt := (p.readAt + (len - cur)) % ringSize }) := by
  -- the fuel drops by one a turn, and each turn copies at least one byte
  induction fuel generalizing cur out p with
  | zero =>
    obtain rfl : cur = len := by omega
    cases p
    simp [readLoop, Nat.mod_eq_of_lt valid.readBelow]
  | succ fuel ih =>
    by_cases done : cur = len
    · subst done
      cases p
      cases fuel <;> simp [readLoop, Nat.mod_eq_of_lt valid.readBelow]
    obtain ⟨k, positive, below, turn⟩ := readTurn_eq atCursor (by omega) ready
    obtain ⟨valid', moved, -, contents'⟩ := advanceRead valid (show k ≤ p.maxRead by omega)
    rw [readLoop, if_pos (by omega)]
    simp only [turn]
    rw [ih valid' (advance_cursor atCursor) (by omega) (by omega) (by omega), contents',
      List.append_assoc,
      ← List.take_add, Nat.mod_add_mod, Nat.add_assoc]
    congr 4 <;> omega

/-- `writeLoop` with cells `cur..len` left: it finishes, having appended
`buf[cur..len]` to the queue and moved `write_at` past it. -/
theorem writeLoop_eq (fuel : Nat) {buf : List UInt8} (valid : p.Valid)
    (atCursor : (start + cur) % ringSize = p.writeAt) (le : cur ≤ len) (within : len ≤ buf.length)
    (room : len - cur ≤ p.maxWrite) (enough : len - cur ≤ fuel) :
    ∃ q, writeLoop start len buf fuel cur p = some q ∧ q.Valid ∧ q.readAt = p.readAt ∧
      q.writeAt = (p.writeAt + (len - cur)) % ringSize ∧
      q.contents = p.contents ++ (buf.drop cur).take (len - cur) := by
  induction fuel generalizing cur p with
  | zero =>
    obtain rfl : cur = len := by omega
    refine ⟨p, by simp [writeLoop], valid, rfl, ?_, by simp⟩
    simp [Nat.mod_eq_of_lt valid.writeBelow]
  | succ fuel ih =>
    by_cases done : cur = len
    · subst done
      refine ⟨p, by cases fuel <;> simp [writeLoop], valid, rfl, ?_, by simp⟩
      simp [Nat.mod_eq_of_lt valid.writeBelow]
    obtain ⟨k, positive, below, fits, turn⟩ :=
      writeTurn_eq buf atCursor (show cur < len by omega)
    obtain ⟨valid', -, moved, contents'⟩ := advanceWrite (fun j => buf.getD (cur + j) 0) valid
      (show k ≤ p.maxWrite by omega) fits fun _ => rfl
    obtain ⟨q, looped, validQ, readQ, writeQ, contentsQ⟩ :=
      ih valid' (advance_cursor atCursor) (by omega) (by omega) (by omega)
    refine ⟨q, ?_, validQ, readQ, ?_, ?_⟩
    · rw [writeLoop, if_pos (by omega)]
      simpa only [turn] using looped
    · rw [writeQ, Nat.mod_add_mod, Nat.add_assoc]
      congr 2
      omega
    · rw [contentsQ, contents', range_map_getD (by omega), List.append_assoc, ← List.drop_drop,
        ← List.take_add]
      congr 3
      omega

end Slices

/-! ## The calls -/

section Calls

variable {p : Pipe}

/-- `read` of a nonempty request from a pipe with bytes in it returns the front
`min(outLen, max_read)` bytes of the queue and moves `read_at` past them. -/
theorem read_eq {outLen : Nat} (valid : p.Valid) (positive : 0 < min outLen p.maxRead) :
    p.read outLen = some (min outLen p.maxRead, p.contents.take (min outLen p.maxRead),
      { p with readAt := (p.readAt + min outLen p.maxRead) % ringSize }) := by
  have atCursor : (p.readAt + 0) % ringSize = p.readAt := Nat.mod_eq_of_lt valid.readBelow
  unfold read
  rw [if_neg (by omega), readLoop_eq _ valid atCursor (Nat.zero_le _) (by omega) (by omega)]
  simp

/-- `write` of a nonempty buffer to a pipe with room in it appends the first
`min(|buf|, max_write)` bytes of the buffer to the queue. -/
theorem write_eq {buf : List UInt8} (valid : p.Valid) (positive : 0 < min buf.length p.maxWrite) :
    ∃ q, p.write buf = some (min buf.length p.maxWrite, q) ∧ q.Valid ∧ q.readAt = p.readAt ∧
      q.writeAt = (p.writeAt + min buf.length p.maxWrite) % ringSize ∧
      q.contents = p.contents ++ buf.take (min buf.length p.maxWrite) := by
  have atCursor : (p.writeAt + 0) % ringSize = p.writeAt := Nat.mod_eq_of_lt valid.writeBelow
  obtain ⟨q, looped, validQ, readQ, writeQ, contentsQ⟩ := writeLoop_eq (min buf.length p.maxWrite)
    valid atCursor (Nat.zero_le _) (min_le_left buf.length p.maxWrite) (by omega) (by omega)
  refine ⟨q, ?_, validQ, readQ, ?_, ?_⟩
  · unfold write
    rw [if_neg (by omega), looped]
    rfl
  · simpa using writeQ
  · simpa using contentsQ

/-- `write` panics on an empty buffer: it asserts that it moves a byte. -/
theorem write_nil (p : Pipe) : p.write [] = none := by
  simp [write]

/-- `read_fast` either refuses with `EAGAIN` and leaves the pipe alone, or reads
the whole request: the front `outLen` bytes of the queue. -/
theorem readFast_spec (outLen : Nat) (locked : Bool) (valid : p.Valid) :
    ∃ r q, p.readFast outLen locked = some (r, q) ∧
      ((r = .error .EAGAIN ∧ q = p) ∨
        (r = .ok (outLen, p.contents.take outLen) ∧ q.Valid ∧
          q.contents = p.contents.drop outLen)) := by
  unfold readFast
  by_cases empty : outLen = 0
  · subst empty
    exact ⟨_, _, if_pos rfl, .inr ⟨by simp, valid, by simp⟩⟩
  rw [if_neg empty]
  by_cases short : p.maxRead < outLen
  · exact ⟨_, _, if_pos short, .inl ⟨rfl, rfl⟩⟩
  rw [if_neg short]
  by_cases busy : !locked
  · exact ⟨_, _, if_pos busy, .inl ⟨rfl, rfl⟩⟩
  rw [if_neg busy]
  by_cases cramped : p.maxWrite < outLen
  · exact ⟨_, _, if_pos cramped, .inl ⟨rfl, rfl⟩⟩
  -- the whole request is readable, so `read` moves all of it
  have whole : min outLen p.maxRead = outLen := min_eq_left (not_lt.mp short)
  have readable : 0 < min outLen p.maxRead := by omega
  obtain ⟨validQ, -, -, contentsQ⟩ := advanceRead valid (min_le_right outLen p.maxRead)
  rw [if_neg cramped, read_eq valid readable]
  refine ⟨_, _, rfl, .inr ⟨?_, validQ, ?_⟩⟩
  · rw [whole]
  · rw [contentsQ, whole]

/-- `write_fast` either refuses with `EAGAIN` and leaves the pipe alone, or writes
the whole buffer to the back of the queue. -/
theorem writeFast_spec (buf : List UInt8) (locked : Bool) (valid : p.Valid) :
    ∃ r q, p.writeFast buf locked = some (r, q) ∧
      ((r = .error .EAGAIN ∧ q = p) ∨
        (r = .ok buf.length ∧ q.Valid ∧ q.contents = p.contents ++ buf)) := by
  unfold writeFast
  by_cases empty : buf.length = 0
  · exact ⟨_, _, if_pos empty, .inr ⟨by rw [empty], valid, by simp [List.length_eq_zero_iff.mp empty]⟩⟩
  rw [if_neg empty]
  by_cases short : p.maxWrite < buf.length
  · exact ⟨_, _, if_pos short, .inl ⟨rfl, rfl⟩⟩
  rw [if_neg short]
  by_cases busy : !locked
  · exact ⟨_, _, if_pos busy, .inl ⟨rfl, rfl⟩⟩
  rw [if_neg busy, if_neg short]
  -- the whole buffer fits, so `write` moves all of it
  have whole : min buf.length p.maxWrite = buf.length := min_eq_left (not_lt.mp short)
  obtain ⟨q, written, validQ, -, -, contentsQ⟩ := write_eq valid
    (show 0 < min buf.length p.maxWrite by omega)
  rw [written, whole]
  exact ⟨_, _, rfl, .inr ⟨rfl, validQ, by rw [contentsQ, whole, List.take_length]⟩⟩

/-- `read_fast` tests `max_write` where `max_read` is meant: on a full pipe it
refuses every nonempty request with `EAGAIN`, though `read` would serve it. -/
theorem readFast_full {outLen : Nat} (locked : Bool) (full : p.maxWrite = 0)
    (positive : 0 < outLen) : p.readFast outLen locked = some (.error .EAGAIN, p) := by
  simp [readFast, full, positive, Nat.pos_iff_ne_zero.mp positive]

end Calls

end Pipe

end FtlOs
