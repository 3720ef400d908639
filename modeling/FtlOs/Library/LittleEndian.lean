import Mathlib.Init

/-!
# Little-endian fields

A `u16`, `u32` or `u64` field of a packed record is stored low byte first.  `le16`
and `le32` are the bytes of a value, `u16At`, `u32At` and `u64At` the value read
back from a byte list at an offset.  Reading back where the bytes of a value stand gives the value.
-/

namespace LittleEndian

/-- The two bytes of a `u16`, low byte first. -/
def le16 (x : UInt16) : List UInt8 := [x.toUInt8, (x >>> 8).toUInt8]

/-- The four bytes of a `u32`, low byte first. -/
def le32 (x : UInt32) : List UInt8 :=
  [x.toUInt8, (x >>> 8).toUInt8, (x >>> 16).toUInt8, (x >>> 24).toUInt8]

/-- The `u16` stored at `off`; a missing byte reads as zero. -/
def u16At (bytes : List UInt8) (off : Nat) : UInt16 :=
  (bytes.getD off 0).toUInt16 + (bytes.getD (off + 1) 0).toUInt16 * 256

/-- The `u32` stored at `off`; a missing byte reads as zero. -/
def u32At (bytes : List UInt8) (off : Nat) : UInt32 :=
  (bytes.getD off 0).toUInt32 + (bytes.getD (off + 1) 0).toUInt32 * 256 +
    (bytes.getD (off + 2) 0).toUInt32 * 65536 + (bytes.getD (off + 3) 0).toUInt32 * 16777216

/-- The eight bytes of a `u64`: its two `u32` halves, the low one first. -/
def le64 (x : UInt64) : List UInt8 := le32 x.toUInt32 ++ le32 (x >>> 32).toUInt32

/-- The `u64` stored at `off`: two `u32`s, the low one first. -/
def u64At (bytes : List UInt8) (off : Nat) : UInt64 :=
  (u32At bytes off).toUInt64 + (u32At bytes (off + 4)).toUInt64 * 4294967296

@[simp] theorem length_le16 (x : UInt16) : (le16 x).length = 2 := rfl

@[simp] theorem length_le32 (x : UInt32) : (le32 x).length = 4 := rfl

@[simp] theorem length_le64 (x : UInt64) : (le64 x).length = 8 := rfl

/-- The bytes of a `u16` put back together give the value. -/
theorem le16_recombine (x : UInt16) :
    (x.toUInt8.toUInt16 + (x >>> 8).toUInt8.toUInt16 * 256 : UInt16) = x := by
  apply UInt16.toNat_inj.mp
  have lt := x.toNat_lt
  simp only [UInt16.toNat_add, UInt16.toNat_mul, UInt8.toNat_toUInt16, UInt16.toNat_toUInt8,
    UInt16.toNat_shiftRight]
  have shift : x.toNat >>> ((8 : UInt16).toNat % 16) = x.toNat / 256 := by
    simp [Nat.shiftRight_eq_div_pow]
  rw [shift]
  simp only [UInt16.reduceToNat]
  omega

/-- The bytes of a `u32` put back together give the value. -/
theorem le32_recombine (x : UInt32) :
    x.toUInt8.toUInt32 + (x >>> 8).toUInt8.toUInt32 * (256 : UInt32) +
      (x >>> 16).toUInt8.toUInt32 * (65536 : UInt32) +
      (x >>> 24).toUInt8.toUInt32 * (16777216 : UInt32) = x := by
  apply UInt32.toNat_inj.mp
  have lt := x.toNat_lt
  simp only [UInt32.toNat_add, UInt32.toNat_mul, UInt8.toNat_toUInt32, UInt32.toNat_toUInt8,
    UInt32.toNat_shiftRight, UInt32.toNat_ofNat, Nat.shiftRight_eq_div_pow]
  simp only [Nat.reduceMod, Nat.reducePow] at *
  omega

/-- A `u16` whose two bytes stand at `off`. -/
theorem u16At_of_getElem? {bytes : List UInt8} {off : Nat} {x : UInt16}
    (lo : bytes[off]? = some x.toUInt8) (hi : bytes[off + 1]? = some (x >>> 8).toUInt8) :
    u16At bytes off = x := by
  simp only [u16At, List.getD_eq_getElem?_getD, lo, hi, Option.getD_some]
  exact le16_recombine x

/-- A `u32` whose four bytes stand at `off`. -/
theorem u32At_of_getElem? {bytes : List UInt8} {off : Nat} {x : UInt32}
    (b0 : bytes[off]? = some x.toUInt8) (b1 : bytes[off + 1]? = some (x >>> 8).toUInt8)
    (b2 : bytes[off + 2]? = some (x >>> 16).toUInt8)
    (b3 : bytes[off + 3]? = some (x >>> 24).toUInt8) :
    u32At bytes off = x := by
  simp only [u32At, List.getD_eq_getElem?_getD, b0, b1, b2, b3, Option.getD_some]
  exact le32_recombine x

/-- The two `u32` halves of a `u64` put back together give the value. -/
theorem le64_recombine (x : UInt64) :
    x.toUInt32.toUInt64 + (x >>> 32).toUInt32.toUInt64 * (4294967296 : UInt64) = x := by
  apply UInt64.toNat_inj.mp
  have lt := x.toNat_lt
  simp only [UInt64.toNat_add, UInt64.toNat_mul, UInt32.toNat_toUInt64, UInt64.toNat_toUInt32,
    UInt64.toNat_shiftRight, UInt64.toNat_ofNat, Nat.shiftRight_eq_div_pow]
  simp only [Nat.reduceMod, Nat.reducePow] at *
  omega

/-- The bytes of a `u64` read back as the `u64`. -/
theorem u64At_le64 (x : UInt64) : u64At (le64 x) 0 = x := by
  have low : u32At (le64 x) 0 = x.toUInt32 := u32At_of_getElem? rfl rfl rfl rfl
  have high : u32At (le64 x) 4 = (x >>> 32).toUInt32 := u32At_of_getElem? rfl rfl rfl rfl
  rw [u64At, low, high]
  exact le64_recombine x

end LittleEndian
