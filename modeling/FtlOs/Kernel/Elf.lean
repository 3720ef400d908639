import FtlOs.Kernel.Syscall.Mmap
import FtlOs.Kernel.Memory.MmapHandler
import FtlOs.Library.LittleEndian

/-!
# Loading an ELF file

`elf::parse`, `ElfAnalyzer::program_header` and the program-header loop of
`UserSpace::from_elf_lazy`, over a file given by its bytes.  `parse` reads the
16 bytes of `HeaderPt1` and, by its class, the 36 or 48 bytes of `HeaderPt2_`.
`program_header` reads entry `index` of the program-header table into a zeroed
buffer of `size_of::<ProgramHeader64>()` = 56 bytes through the slice
`buf[..ph_entry_size]`.  The loop maps each `PT_LOAD` segment with `force_push`,
after `assert!(start_va.floor() >= max_end_4k)`.

Every header field comes from the file, and a slice past the buffer panics in
the release build as well.  So every file whose header parses and whose
program-header table the loop reads panics the kernel when its
`ph_entry_size` exceeds 56 (`fromElfLazy_panics_on_wide_entries`); the
assertion panics on segments out of address order.

`read_at` of a file held as its bytes cannot fail, and `from_global` is taken to
succeed.  The mappings made after the loop (the KRX and random pages, the stack
and the heap) and the auxiliary vector are the parameter `finish` of
`fromElfLazy`.
-/

namespace FtlOs

namespace Elf

open LittleEndian

/-- `VfsFile::read_at(offset, buf)` with a buffer of `len` bytes: the bytes the file
has from `offset`, at most `len`; their number is the count it returns. -/
def readAt (file : List UInt8) (offset len : Nat) : List UInt8 := (file.drop offset).take len

@[simp] theorem length_readAt (file : List UInt8) (offset len : Nat) :
    (readAt file offset len).length = min len (file.length - offset) := by
  simp [readAt]

/-- `size_of::<HeaderPt1>()`. -/
def ph1Size : Nat := 16

/-- `size_of::<HeaderPt2_<u32>>()`. -/
def ph2Size32 : Nat := 36

/-- `size_of::<HeaderPt2_<u64>>()`. -/
def ph2Size64 : Nat := 48

/-- `size_of::<ProgramHeader64>()`, the size of `program_header`'s buffer. -/
def programHeader64Size : Nat := 56

/-- `xmas_elf::header::Class`, from the class byte of `HeaderPt1`. -/
inductive Class where
  | none
  | thirtyTwo
  | sixtyFour
  | other (byte : UInt8)
  deriving DecidableEq, Repr

/-- `HeaderPt1::class`: the byte after the magic. -/
def Class.ofByte (byte : UInt8) : Class :=
  if byte = 0 then .none
  else if byte = 1 then .thirtyTwo
  else if byte = 2 then .sixtyFour
  else .other byte

/-- The fields of the kernel's `HeaderPt2` that `from_elf_lazy` reads. -/
structure HeaderPt2 where
  /-- `entry_point`. -/
  entryPoint : Usize
  /-- `ph_offset`: where the program-header table starts in the file. -/
  phOffset : Usize
  /-- `ph_entry_size`: the size of one entry of the table. -/
  phEntrySize : UInt16
  /-- `ph_count`: the number of entries. -/
  phCount : UInt16
  deriving DecidableEq, Repr

/-- `HeaderPt2::from_32header`: the fields of `HeaderPt2_<u32>`, widened. -/
def HeaderPt2.from32header (buf : List UInt8) : HeaderPt2 where
  entryPoint := (u32At buf 8).toUInt64
  phOffset := (u32At buf 12).toUInt64
  phEntrySize := u16At buf 26
  phCount := u16At buf 28

/-- The `transmute` of the bytes of a `HeaderPt2_<u64>` into `HeaderPt2`, which has
its layout. -/
def HeaderPt2.from64header (buf : List UInt8) : HeaderPt2 where
  entryPoint := u64At buf 8
  phOffset := u64At buf 16
  phEntrySize := u16At buf 38
  phCount := u16At buf 40

/-- `ElfAnalyzer`: the file, the class of `pt1`, and `pt2`. -/
structure ElfAnalyzer where
  /-- `file`. -/
  file : List UInt8
  /-- `pt1.class()`. -/
  elfClass : Class
  /-- `pt2`. -/
  pt2 : HeaderPt2
  deriving DecidableEq

/-- The magic `[0x7f, b'E', b'L', b'F']`. -/
def magic : List UInt8 := [0x7f, 0x45, 0x4c, 0x46]

/-- `elf::parse`: a file too short for its headers, with another magic or with a
class other than 32 or 64 bits is `EFAULT`. -/
def parse (file : List UInt8) : SysR ElfAnalyzer :=
  let pt1 := readAt file 0 ph1Size
  if pt1.length < ph1Size then .error .EFAULT
  else if pt1.take 4 ≠ magic then .error .EFAULT
  else
    match Class.ofByte (pt1.getD 4 0) with
    | .thirtyTwo =>
        let buf := readAt file ph1Size ph2Size32
        if buf.length < ph2Size32 then .error .EFAULT
        else .ok ⟨file, .thirtyTwo, .from32header buf⟩
    | .sixtyFour =>
        let buf := readAt file ph1Size ph2Size64
        if buf.length < ph2Size64 then .error .EFAULT
        else .ok ⟨file, .sixtyFour, .from64header buf⟩
    | _ => .error .EFAULT

/-- The fields of `ProgramHeader32` and `ProgramHeader64` that the accessors of
`Segment` return, as `usize`. -/
structure Segment where
  /-- `type_`, the raw `p_type`. -/
  type : UInt32
  /-- `flags`, `p_flags`. -/
  flags : UInt32
  /-- `offset()`, `p_offset`. -/
  offset : Usize
  /-- `virtual_addr()`, `p_vaddr`. -/
  virtualAddr : Usize
  /-- `file_size()`, `p_filesz`. -/
  fileSize : Usize
  /-- `mem_size()`, `p_memsz`. -/
  memSize : Usize
  deriving DecidableEq, Repr

/-- `Segment::Ph64` of the buffer: `ProgramHeader64` is `type_`, `flags`, `offset`,
`virtual_addr`, `physical_addr`, `file_size`, `mem_size` and `align`. -/
def Segment.ph64 (buf : List UInt8) : Segment where
  type := u32At buf 0
  flags := u32At buf 4
  offset := u64At buf 8
  virtualAddr := u64At buf 16
  fileSize := u64At buf 32
  memSize := u64At buf 40

/-- `Segment::Ph32` of the buffer: `ProgramHeader32` is `type_`, `offset`,
`virtual_addr`, `physical_addr`, `file_size`, `mem_size`, `flags` and `align`,
four bytes each. -/
def Segment.ph32 (buf : List UInt8) : Segment where
  type := u32At buf 0
  flags := u32At buf 24
  offset := (u32At buf 4).toUInt64
  virtualAddr := (u32At buf 8).toUInt64
  fileSize := (u32At buf 16).toUInt64
  memSize := (u32At buf 20).toUInt64

/-- `ElfAnalyzer::program_header`: entry `index` of the table, read from
`ph_offset + index * ph_entry_size` (the sum wraps) into the zeroed 56-byte buffer
through `buf[..ph_entry_size]`.  The outer `none` is a panic. -/
def ElfAnalyzer.programHeader (elf : ElfAnalyzer) (index : Nat) : Option (SysR Segment) :=
  let pt2 := elf.pt2
  if pt2.phOffset = 0 ∨ pt2.phEntrySize = 0 then some (.error .EFAULT)
  else
    let start := (pt2.phOffset.toNat + index * pt2.phEntrySize.toNat) % 2 ^ 64
    let size := pt2.phEntrySize.toNat
    -- the slice `buf[..size]` of the 56-byte buffer
    if programHeader64Size < size then none
    else
      let read := readAt elf.file start size
      if read.length < size then some (.error .EFAULT)
      else
        let buf := read ++ List.replicate (programHeader64Size - size) 0
        match elf.elfClass with
        | .thirtyTwo => some (.ok (.ph32 buf))
        | .sixtyFour => some (.ok (.ph64 buf))
        -- `unreachable!()`
        | _ => none

/-- The types of `xmas_elf::program::Type` that `from_elf_lazy` tells apart. -/
inductive SegmentType where
  | load
  | other
  deriving DecidableEq, Repr

/-- `Segment::get_type`, xmas-elf's `Type_::as_type`: `PT_LOAD` is 1; the other
types it knows are 0 to 7 and the OS- and processor-specific range
`0x6000_0000 ..= 0x7FFF_FFFF`, and any other value is an error. -/
def Segment.getType (ph : Segment) : Except String SegmentType :=
  if ph.type = 1 then .ok .load
  else if ph.type ≤ 7 ∨ (0x6000_0000 ≤ ph.type ∧ ph.type ≤ 0x7FFF_FFFF) then .ok .other
  else .error "Invalid type"

/-- The permission of a segment: `U`, with `R`, `W` and `X` for the flags `is_read`
(4), `is_write` (2) and `is_execute` (1). -/
def Segment.perm (ph : Segment) : Nat :=
  PTEFlags.U ||| (if ph.flags &&& 4 ≠ 0 then PTEFlags.R else 0) |||
    (if ph.flags &&& 2 ≠ 0 then PTEFlags.W else 0) |||
    (if ph.flags &&& 1 ≠ 0 then PTEFlags.X else 0)

/-- The handler of a segment, `MmapHandler::box_new(Some(file), start_va.floor(),
ph.offset() - align4k, ph.file_size() + align4k, perm, false, true)`: a private
mapping of the file that `init` only numbers. -/
structure ProgramHandler where
  /-- The page-filling fields: the first page's address, the offset, the file part. -/
  spec : MmapHandlerSpec
  /-- `perm`. -/
  perm : Nat

/-- The state of the loop: the handlers of the address space, `head_va`, and
`max_end_4k` as a page. -/
structure LoadState where
  /-- `space.map_segment`'s handlers. -/
  space : HandlerManager ProgramHandler
  /-- `head_va`. -/
  headVa : Usize
  /-- `max_end_4k`, the page after the last segment mapped. -/
  maxEnd : Nat

/-- Before the loop: `from_global` has no handler, `head_va` and `max_end_4k` are null. -/
def LoadState.init : LoadState := ⟨⟨RangeMap.new⟩, 0, 0⟩

/-- The pages of a `PT_LOAD` segment, `start_va.floor()..end_va.ceil()`: its end
`p_vaddr + p_memsz` wraps, and so does the ceiling. -/
def Segment.pages (ph : Segment) : Range Nat :=
  ⟨ph.virtualAddr.toNat / pageSize, pageCeil (ph.virtualAddr + ph.memSize).toNat⟩

/-- The handler of a `PT_LOAD` segment: `align4k` is `start_va`'s offset in its page,
and the offset and size of the file part wrap. -/
def Segment.handler (ph : Segment) : ProgramHandler :=
  let align4k := ph.virtualAddr % pageSize.toUInt64
  ⟨⟨ph.virtualAddr - align4k, ph.offset - align4k, ph.fileSize + align4k⟩, ph.perm⟩

/-- One turn of the loop of `from_elf_lazy`, for the header at `index`: a segment
that is not `PT_LOAD` is skipped, a `PT_LOAD` one below `max_end_4k` fails the
assertion, and the others are pushed.  The outer `none` is a panic. -/
def loadSegment (elf : ElfAnalyzer) (st : LoadState) (index : Nat) : Option (SysR LoadState) :=
  match elf.programHeader index with
  | none => none
  | some (.error e) => some (.error e)
  | some (.ok ph) =>
      match ph.getType with
      | .error _ => some (.error .EFAULT)
      | .ok .other => some (.ok st)
      | .ok .load =>
          -- `assert!(start_va.floor() >= max_end_4k)`
          if ph.pages.start < st.maxEnd then none
          else
            (st.space.forcePush ph.pages ph.handler).map fun space =>
              .ok ⟨space, if st.headVa = 0 then ph.virtualAddr else st.headVa, ph.pages.stop⟩

/-- The loop `for i in 0..ph_count` over the given indices; an error ends it. -/
def loadLoop (elf : ElfAnalyzer) : List Nat → LoadState → Option (SysR LoadState)
  | [], st => some (.ok st)
  | index :: rest, st =>
      match loadSegment elf st index with
      | none => none
      | some (.error e) => some (.error e)
      | some (.ok st') => loadLoop elf rest st'

/-- `UserSpace::from_elf_lazy`: `parse`, the loop over the program headers, and
`finish`, the mappings after the loop, given the analyzer and the loop's state. -/
def fromElfLazy {α : Type} (file : List UInt8) (finish : ElfAnalyzer → LoadState → Option (SysR α)) :
    Option (SysR α) :=
  match parse file with
  | .error e => some (.error e)
  | .ok elf =>
      match loadLoop elf (List.range elf.pt2.phCount.toNat) .init with
      | none => none
      | some (.error e) => some (.error e)
      | some (.ok st) => finish elf st

/-! ## Wide table entries -/

section Wide

variable {elf : ElfAnalyzer}

/-- An entry wider than `ProgramHeader64` is the slice panic, wherever the table is. -/
theorem ElfAnalyzer.programHeader_of_wide (offset : elf.pt2.phOffset ≠ 0)
    (wide : programHeader64Size < elf.pt2.phEntrySize.toNat) (index : Nat) :
    elf.programHeader index = none := by
  have nonzero : elf.pt2.phEntrySize ≠ 0 := by
    rintro zero
    simp [zero] at wide
  simp [ElfAnalyzer.programHeader, offset, nonzero, wide]

/-- The loop panics at its first header when the entries are wide. -/
theorem loadLoop_of_wide (offset : elf.pt2.phOffset ≠ 0)
    (wide : programHeader64Size < elf.pt2.phEntrySize.toNat) (index : Nat) (rest : List Nat)
    (st : LoadState) : loadLoop elf (index :: rest) st = none := by
  simp [loadLoop, loadSegment, ElfAnalyzer.programHeader_of_wide offset wide]

/-- Every file whose header parses, with a program-header table at a nonzero offset
with at least one entry, panics the kernel in `from_elf_lazy` when the entries are
wider than `ProgramHeader64`, whatever the rest of the file and whatever follows
the loop. -/
theorem fromElfLazy_panics_on_wide_entries {α : Type} (file : List UInt8)
    (finish : ElfAnalyzer → LoadState → Option (SysR α)) (parsed : parse file = .ok elf)
    (offset : elf.pt2.phOffset ≠ 0) (entries : 0 < elf.pt2.phCount.toNat)
    (wide : programHeader64Size < elf.pt2.phEntrySize.toNat) :
    fromElfLazy file finish = none := by
  obtain ⟨rest, indices⟩ : ∃ rest, List.range elf.pt2.phCount.toNat = 0 :: rest := by
    obtain ⟨m, count⟩ := Nat.exists_eq_add_one.mpr entries
    rw [count, List.range_succ_eq_map]
    exact ⟨_, rfl⟩
  simp [fromElfLazy, parsed, indices, loadLoop_of_wide offset wide]

/-- A 64-byte file: a 64-bit header whose table of one entry of 64 bytes starts at 64. -/
def wideEntryFile : List UInt8 :=
  [0x7f, 0x45, 0x4c, 0x46, 2, 1, 1, 0, 0, 0, 0, 0, 0, 0, 0, 0] ++
  List.replicate 16 0 ++ [64, 0, 0, 0, 0, 0, 0, 0] ++ List.replicate 14 0 ++
  [64, 0, 1, 0] ++ List.replicate 6 0

theorem wide_entry_file_panics :
    parse wideEntryFile = .ok ⟨wideEntryFile, .sixtyFour, ⟨0, 64, 64, 1⟩⟩ ∧
      fromElfLazy wideEntryFile (fun _ st => some (Except.ok st)) = none :=
  have parsed : parse wideEntryFile = .ok ⟨wideEntryFile, .sixtyFour, ⟨0, 64, 64, 1⟩⟩ := by decide
  ⟨parsed, fromElfLazy_panics_on_wide_entries _ _ parsed (by decide) (by decide) (by decide)⟩

end Wide

end Elf

end FtlOs
