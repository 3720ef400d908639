import FtlOs.Library.LittleEndian
import Mathlib.Data.List.Basic
import Mathlib.Order.Interval.Set.Basic

/-!
# A byte-addressed memory

A memory maps every address to a byte.  `write` stores a list of bytes at an address, one after
another, and `read` loads `n` bytes.  A store leaves every byte outside its range alone
(`write_of_lt`, `write_of_le`), so a load of the range of a store gives back what it stored
(`read_write_self`), and a load that misses the range sees the memory as it was before
(`read_write_of_disjoint`).  A `u64` is stored as its eight bytes, low byte first, and loaded
back (`readU64_writeU64`).

A program that stores one thing after another is reasoned about with two notions: `Frame S`
says that a memory differs from another one only at the addresses of `S`, and `Stored` that the
bytes at an address are the given ones.  Stores compose their frames (`Frame.trans`), and what
is stored stays so under a frame that misses it (`Stored.frame`).
-/

namespace ByteMemory

/-- A byte-addressed memory. -/
abbrev Memory := Nat → UInt8

/-- Store `bytes` at `addr`, `addr + 1`, and so on. -/
def write (mem : Memory) (addr : Nat) : List UInt8 → Memory
  | [] => mem
  | b :: rest => write (Function.update mem addr b) (addr + 1) rest

/-- Load the `n` bytes at `addr`. -/
def read (mem : Memory) (addr n : Nat) : List UInt8 := (List.range n).map fun k => mem (addr + k)

/-- Store a `u64`, low byte first. -/
def writeU64 (mem : Memory) (addr : Nat) (x : UInt64) : Memory :=
  write mem addr (LittleEndian.le64 x)

/-- Load a `u64` stored low byte first. -/
def readU64 (mem : Memory) (addr : Nat) : UInt64 := LittleEndian.u64At (read mem addr 8) 0

variable {mem : Memory} {addr a n : Nat} {bytes : List UInt8}

@[simp] theorem length_read (mem : Memory) (addr n : Nat) : (read mem addr n).length = n := by
  simp [read]

/-- A store leaves the bytes below it alone. -/
theorem write_of_lt (below : a < addr) : write mem addr bytes a = mem a := by
  induction bytes generalizing mem addr with
  | nil => rfl
  | cons b rest ih =>
    rw [write, ih (by omega), Function.update_of_ne (by omega)]

/-- A store leaves the bytes above it alone. -/
theorem write_of_le (above : addr + bytes.length ≤ a) : write mem addr bytes a = mem a := by
  induction bytes generalizing mem addr with
  | nil => rfl
  | cons b rest ih =>
    simp only [List.length_cons] at above
    rw [write, ih (by omega), Function.update_of_ne (by omega)]

/-- The `k`-th byte a store stored. -/
theorem write_add {k : Nat} (inside : k < bytes.length) :
    write mem addr bytes (addr + k) = bytes[k] := by
  induction bytes generalizing mem addr k with
  | nil => cases inside
  | cons b rest ih =>
    cases k with
    | zero =>
      rw [write, write_of_lt (by omega)]
      simp
    | succ k =>
      rw [write, show addr + (k + 1) = addr + 1 + k by omega, ih]
      rfl

theorem write_append (cs : List UInt8) :
    write mem addr (bytes ++ cs) = write (write mem addr bytes) (addr + bytes.length) cs := by
  induction bytes generalizing mem addr with
  | nil => rfl
  | cons b rest ih =>
    simp only [List.cons_append, write, ih, List.length_cons]
    rw [Nat.add_assoc, Nat.add_comm 1]

theorem read_write_self : read (write mem addr bytes) addr bytes.length = bytes := by
  apply List.ext_getElem (by simp)
  intro k inside _
  simp only [read, List.getElem_map, List.getElem_range]
  exact write_add (by simpa using inside)

/-- A load that misses the range of a store sees the memory as it was. -/
theorem read_write_of_disjoint (apart : a + n ≤ addr ∨ addr + bytes.length ≤ a) :
    read (write mem addr bytes) a n = read mem a n := by
  apply List.ext_getElem (by simp)
  intro k inside _
  simp only [read, List.getElem_map, List.getElem_range]
  simp only [length_read] at inside
  rcases apart with below | above
  · exact write_of_lt (by omega)
  · exact write_of_le (by omega)

theorem read_add (mem : Memory) (addr n m : Nat) :
    read mem addr (n + m) = read mem addr n ++ read mem (addr + n) m := by
  simp only [read, List.range_add, List.map_append, List.map_map]
  congr 1
  apply List.map_congr_left
  intro k _
  simp [Nat.add_assoc]

theorem readU64_writeU64 (x : UInt64) : readU64 (writeU64 mem addr x) addr = x := by
  rw [readU64, writeU64, ← LittleEndian.length_le64 x, read_write_self,
    LittleEndian.u64At_le64]

/-! ## Frames -/

/-- `mem'` differs from `mem` only at the addresses of `S`. -/
def Frame (S : Set Nat) (mem mem' : Memory) : Prop := ∀ a, a ∉ S → mem' a = mem a

variable {S T : Set Nat} {mem' mem'' : Memory}

theorem frame_refl (S : Set Nat) (mem : Memory) : Frame S mem mem := fun _ _ => rfl

theorem Frame.trans (first : Frame S mem mem') (second : Frame T mem' mem'') :
    Frame (S ∪ T) mem mem'' := by
  intro a outside
  rw [Set.mem_union, not_or] at outside
  rw [second a outside.2, first a outside.1]

theorem Frame.mono (frame : Frame S mem mem') (sub : S ⊆ T) : Frame T mem mem' :=
  fun a outside => frame a fun inside => outside (sub inside)

/-- A store changes only the bytes of its range. -/
theorem frame_write (mem : Memory) (addr : Nat) (bytes : List UInt8) :
    Frame (Set.Ico addr (addr + bytes.length)) mem (write mem addr bytes) := by
  intro a outside
  rw [Set.mem_Ico, not_and_or, Nat.not_le, Nat.not_lt] at outside
  rcases outside with below | above
  · exact write_of_lt below
  · exact write_of_le above

theorem frame_writeU64 (mem : Memory) (addr : Nat) (x : UInt64) :
    Frame (Set.Ico addr (addr + 8)) mem (writeU64 mem addr x) :=
  frame_write mem addr (LittleEndian.le64 x)

/-- `n` bytes at `a` that end before `lo` or start at `hi` miss `[lo, hi)`. -/
theorem apart_Ico {lo hi : Nat} (outside : a + n ≤ lo ∨ hi ≤ a) :
    ∀ k < n, a + k ∉ Set.Ico lo hi := by
  intro k below inside
  rw [Set.mem_Ico] at inside
  omega

/-- A load that misses the frame sees the memory as it was. -/
theorem read_frame (frame : Frame S mem mem') (apart : ∀ k < n, a + k ∉ S) :
    read mem' a n = read mem a n := by
  apply List.ext_getElem (by simp)
  intro k inside _
  simp only [read, List.getElem_map, List.getElem_range]
  exact frame _ (apart k (by simpa using inside))

theorem readU64_frame (frame : Frame S mem mem') (apart : ∀ k < 8, a + k ∉ S) :
    readU64 mem' a = readU64 mem a := by
  rw [readU64, readU64, read_frame frame apart]

/-! ## What is stored -/

/-- The bytes at `addr` are `bytes`. -/
def Stored (mem : Memory) (addr : Nat) (bytes : List UInt8) : Prop :=
  read mem addr bytes.length = bytes

instance (mem : Memory) (addr : Nat) (bytes : List UInt8) : Decidable (Stored mem addr bytes) :=
  inferInstanceAs (Decidable (_ = _))

theorem stored_write (mem : Memory) (addr : Nat) (bytes : List UInt8) :
    Stored (write mem addr bytes) addr bytes :=
  read_write_self

theorem Stored.frame (stored : Stored mem a bytes) (frame : Frame S mem mem')
    (apart : ∀ k < bytes.length, a + k ∉ S) : Stored mem' a bytes := by
  rw [Stored, read_frame frame apart]
  exact stored

theorem stored_append {cs : List UInt8} :
    Stored mem a (bytes ++ cs) ↔ Stored mem a bytes ∧ Stored mem (a + bytes.length) cs := by
  rw [Stored, List.length_append, read_add]
  constructor
  · intro both
    exact List.append_inj both (length_read mem a _)
  · rintro ⟨front, back⟩
    rw [Stored] at front back
    rw [front, back]

@[simp] theorem stored_nil (mem : Memory) (addr : Nat) : Stored mem addr [] := rfl

theorem Stored.readU64 {x : UInt64} (stored : Stored mem a (LittleEndian.le64 x)) :
    readU64 mem a = x := by
  rw [ByteMemory.readU64, ← LittleEndian.length_le64 x, stored, LittleEndian.u64At_le64]

end ByteMemory
