import FtlOs.Kernel.Config
import FtlOs.Library.ByteMemory

/-!
# The initial user stack

`UserSpace::push_args` of `kernel/src/memory/user_space/mod.rs` lays out what a program finds
on its stack at its entry.  Going down from the top `sp_top` of the stack it leaves one `usize`,
puts the environment strings and the argument strings, each followed by a zero byte, the
platform string `"RISC-V64"` 16-aligned below them, the auxiliary vector ending with a zero
entry, the `envp` and `argv` pointer arrays each ending with a null pointer, and `argc`, where
the new `sp` points.  It first computes all these places (`layout`), and then writes the
platform string, the auxiliary vector, the environment, the arguments and `argc` there.
`push_args_size` is the number of pages `execve` reserves for it, and `push_args` checks with two
debug asserts that the stack it built lies within them.

The model keeps `usize` arithmetic on `Usize`.  The memory is byte-addressed (`ByteMemory`), and
a `usize` or an `AuxHeader` is stored low byte first, as on RISC-V.  A string is its bytes.  The
`AutoSum` guard only lets the kernel write user pages, and is left out.
-/

namespace FtlOs

namespace UserSpace

open ByteMemory

/-- `size_of::<usize>()`. -/
def sizeOfUsize : Usize := 8

/-- `AuxHeader`, an entry of the auxiliary vector. -/
structure AuxHeader where
  auxType : Usize
  value : Usize
  deriving DecidableEq, Repr

/-- `AuxHeader::reverse`: the bytes `push_args_size` counts for the auxiliary vector. -/
def AuxHeader.reverse : Nat := 40 * 8 * 2

/-- The sixteen bytes `AuxHeader::write_to` stores: `[aux_type, value]`. -/
def AuxHeader.bytes (h : AuxHeader) : List UInt8 :=
  LittleEndian.le64 h.auxType ++ LittleEndian.le64 h.value

/-- The platform string `"RISC-V64"`. -/
def platform : List UInt8 := [0x52, 0x49, 0x53, 0x43, 0x2D, 0x56, 0x36, 0x34]

/-- `usize_align`: `sp & -(size_of::<usize>() as isize) as usize`. -/
def usizeAlign (sp : Usize) : Usize := sp &&& (0 - sizeOfUsize)

/-- `align16`: `sp & -16isize as usize`. -/
def align16 (sp : Usize) : Usize := sp &&& (0 - 16)

/-- `write_str_skip`: below a string and its zero byte. -/
def writeStrSkip (sp : Usize) (s : List UInt8) : Usize := sp - (UInt64.ofNat s.length + 1)

/-- `write_strings_skip`: below the strings and their zero bytes, and the length of their
pointer array with its null pointer. -/
def writeStringsSkip (sp : Usize) (strs : List (List UInt8)) : Usize × Usize :=
  (sp - strs.foldl (fun a s => a + UInt64.ofNat s.length + 1) 0, UInt64.ofNat strs.length + 1)

/-- `write_auxv_skip`: below the auxiliary vector and its zero entry. -/
def writeAuxvSkip (sp : Usize) (auxv : List AuxHeader) : Usize :=
  sp - (UInt64.ofNat auxv.length + 1) * 2 * sizeOfUsize

/-- `write_str`: the bytes of the string, then a zero byte. -/
def writeStr (mem : Memory) (sp : Usize) (s : List UInt8) : Memory :=
  write (write mem sp.toNat s) (sp + UInt64.ofNat s.length).toNat [0]

/-- The loop of `write_strings`: each string's address into its slot of the pointer array at
`p`, then the string and a zero byte. -/
def writeStringsLoop : Memory → Usize → Usize → List (List UInt8) → Memory
  | mem, _, _, [] => mem
  | mem, sp, p, s :: rest =>
    let mem := writeU64 mem p.toNat sp
    let mem := write mem sp.toNat s
    let sp := sp + UInt64.ofNat s.length
    let mem := write mem sp.toNat [0]
    writeStringsLoop mem (sp + 1) (p + sizeOfUsize) rest

/-- `write_strings`: the null pointer that ends the array `ptrs`, then the strings from `sp`
up and their addresses. -/
def writeStrings (mem : Memory) (sp : Usize) (strs : List (List UInt8)) (ptrs : Usize) :
    Memory :=
  writeStringsLoop (writeU64 mem (ptrs + UInt64.ofNat strs.length * sizeOfUsize).toNat 0) sp
    ptrs strs

/-- The `for_each` of `write_auxv`: each entry into its sixteen bytes. -/
def writeAuxvLoop : Memory → Usize → List AuxHeader → Memory
  | mem, _, [] => mem
  | mem, sp, h :: rest => writeAuxvLoop (write mem sp.toNat h.bytes) (sp + 16) rest

/-- `write_auxv`: the entries, then a zero entry. -/
def writeAuxv (mem : Memory) (sp : Usize) (auxv : List AuxHeader) : Memory :=
  let mem := writeAuxvLoop mem sp auxv
  let sp := sp + UInt64.ofNat auxv.length * 16
  write mem sp.toNat (List.replicate 16 0)

/-- The places `push_args` computes, going down from `sp_top`. -/
structure Layout where
  /-- the environment strings -/
  envpPtr : Usize
  /-- the argument strings -/
  argsPtr : Usize
  /-- the platform string -/
  platPtr : Usize
  /-- the auxiliary vector -/
  auxvPtr : Usize
  /-- the `envp` array -/
  rEnvp : Usize
  /-- the `argv` array -/
  rArgv : Usize
  /-- `argc`, the new `sp` -/
  argcPtr : Usize
  /-- the length of the `envp` array with its null pointer -/
  envpLen : Usize
  /-- the length of the `argv` array with its null pointer -/
  argsLen : Usize
  deriving DecidableEq, Repr

/-- The first half of `push_args`: its pointer arithmetic.  `rand` is `0`. -/
def layout (spTop : Usize) (args envp : List (List UInt8)) (auxv : List AuxHeader) : Layout :=
  let sp := usizeAlign spTop
  let sp := sp - sizeOfUsize
  let (sp, envpLen) := writeStringsSkip sp envp
  let envpPtr := sp
  let (sp, argsLen) := writeStringsSkip sp args
  let argsPtr := sp
  let rand : Usize := 0
  let sp := sp - rand % UInt64.ofNat pageSize
  let sp := writeStrSkip sp platform
  let sp := align16 sp
  let platPtr := sp
  let sp := writeAuxvSkip sp auxv
  let auxvPtr := sp
  let sp := sp - envpLen * sizeOfUsize
  let rEnvp := sp
  let sp := sp - argsLen * sizeOfUsize
  let rArgv := sp
  let sp := sp - sizeOfUsize
  ⟨envpPtr, argsPtr, platPtr, auxvPtr, rEnvp, rArgv, sp, envpLen, argsLen⟩

example : layout 0x2000 [[97]] [] [] =
    ⟨0x1FF8, 0x1FF6, 0x1FE0, 0x1FD0, 0x1FC8, 0x1FB8, 0x1FB0, 1, 2⟩ := by decide

/-- `push_args`: the memory after it, and the `(sp, argc, argv, envp)` it returns. -/
def pushArgs (mem : Memory) (spTop : Usize) (args envp : List (List UInt8))
    (auxv : List AuxHeader) : Memory × Usize × Usize × Usize × Usize :=
  let l := layout spTop args envp auxv
  let mem := writeStr mem l.platPtr platform
  let mem := writeAuxv mem l.auxvPtr auxv
  let mem := writeStrings mem l.envpPtr envp l.rEnvp
  let mem := writeStrings mem l.argsPtr args l.rArgv
  let mem := writeU64 mem l.argcPtr.toNat (l.argsLen - 1)
  (mem, l.argcPtr, l.argsLen - 1, l.rArgv, l.rEnvp)

/-- `floor` of a user address: `self & !(PAGE_SIZE - 1)`. -/
def pageFloor (a : Usize) : Usize := a &&& ~~~(UInt64.ofNat pageSize - 1)

/-- `ceil` of a user address: `(self + PAGE_SIZE - 1) & !(PAGE_SIZE - 1)`. -/
def pageCeil (a : Usize) : Usize :=
  (a + UInt64.ofNat pageSize - 1) &&& ~~~(UInt64.ofNat pageSize - 1)

/-- The debug asserts of `push_args` on the `sp` it computed: the stack lies below `sp_top`,
and within `reverse` pages of it (`sp_top.sub_page(reverse)`). -/
def asserts (spTop reverse sp : Usize) : Bool :=
  pageCeil sp ≤ spTop && spTop - reverse * UInt64.ofNat pageSize ≤ pageFloor sp

/-- `push_args_size`: the pages for the arguments, the environment, their pointer arrays, the
auxiliary vector, the platform string, padding and a random offset (`PageCount::page_ceil`). -/
def pushArgsSize (args envp : List (List UInt8)) : Usize :=
  let xsum := fun (strs : List (List UInt8)) =>
    strs.foldl (fun x v => x + (UInt64.ofNat v.length + 1)) (0 : Usize)
  let size : Usize := 0
  let size := size + 8
  let size := size + (UInt64.ofNat args.length + 1) * sizeOfUsize
  let size := size + (UInt64.ofNat envp.length + 1) * sizeOfUsize
  let size := size + UInt64.ofNat AuxHeader.reverse
  let size := size + 16 * 2
  let size := size + (UInt64.ofNat platform.length + 1)
  let size := size + 16
  let size := size + UInt64.ofNat pageSize
  let size := size + xsum args
  let size := size + xsum envp
  (size + UInt64.ofNat pageSize - 1) / UInt64.ofNat pageSize

end UserSpace

end FtlOs
