import Mathlib.Init

/-!
# The kernel's configuration and machine words

`PAGE_SIZE` of `config.rs`, and `usize` as the kernel is built for it: 64 bits
on RISC-V, and with `overflow-checks = false` in the release profile, so that
`+` and `-` on it wrap.  `UInt64` has exactly that arithmetic.
-/

namespace FtlOs

/-- `PAGE_SIZE`. -/
def pageSize : Nat := 4096

/-- `usize` on the kernel's target, with the release profile's wrapping `+` and `-`. -/
abbrev Usize := UInt64

/-- `usize::MAX`. -/
def usizeMax : Usize := 0xFFFF_FFFF_FFFF_FFFF

end FtlOs
