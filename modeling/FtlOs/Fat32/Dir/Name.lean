import FtlOs.Library.LittleEndian
import FtlOs.Library.Bitflags
import Mathlib.Tactic.IntervalCases

/-!
# Directory slots

A directory cluster is an array of 32-byte slots, `RawName`.  A slot is read
either as a short entry, `RawShortName`, or as a long-name entry,
`RawLongName`; both are packed, so a slot is modelled by its bytes and the two
records by the fields read out of them.  The first byte is the short name's
first character and the long entry's order at once: `0x00` or `0xE5` there
marks the slot free.  A used slot whose attribute byte is `0x0F` is a long
entry.

A long entry stores thirteen UTF-16 units in three packed runs, `p1`, `p2` and
`p3`; `RawLongName::set` writes them and `store_name` reads them back in
order.  The times of a short entry are written by `init_time` and read by
nothing modelled here, so the model writes them as zero.
-/

namespace FtlOs

open LittleEndian

/-- `RawName`: the bytes of one directory slot. -/
abbrev RawName := Vector UInt8 32

-- The `Attr` flags of a short entry.
namespace Attr

def READ_ONLY : Nat := 0x01
def HIDDEN : Nat := 0x02
def SYSTEM : Nat := 0x04
def VOLUME_ID : Nat := 0x08
def DIRECTORY : Nat := 0x10
def ARCHIVE : Nat := 0x20

/-- Every declared flag. -/
def all : Nat := 0x3F

/-- `Attr::new`. -/
def new (dir readOnly hidden : Bool) : Nat :=
  (if dir then DIRECTORY else 0) ||| (if readOnly then READ_ONLY else 0) |||
    (if hidden then HIDDEN else 0)

end Attr

/-- `u8::to_ascii_lowercase`. -/
def toAsciiLowercase (c : UInt8) : UInt8 := if 0x41 ≤ c ∧ c ≤ 0x5A then c + 0x20 else c

/-- `u8::to_ascii_uppercase`. -/
def toAsciiUppercase (c : UInt8) : UInt8 := if 0x61 ≤ c ∧ c ≤ 0x7A then c - 0x20 else c

/-- `u8::rotate_right(1)`. -/
def rotateRight1 (a : UInt8) : UInt8 := (a >>> 1) ||| (a <<< 7)

/-- The fields of `RawShortName` that the file system reads. -/
structure RawShortName where
  /-- The base name, padded with `0x20`. -/
  name : Vector UInt8 8
  /-- The extension, padded with `0x20`. -/
  ext : Vector UInt8 3
  attributes : UInt8
  /-- The case bits: `0x08` a lower-case base name, `0x10` an upper-case extension. -/
  reversed : UInt8
  clusterH16 : UInt16
  clusterL16 : UInt16
  fileBytes : UInt32
  deriving DecidableEq, Repr

namespace RawShortName

/-- `zeroed`. -/
def zeroed : RawShortName := ⟨Vector.replicate 8 0, Vector.replicate 3 0, 0, 0, 0, 0, 0⟩

/-- `is_free`. -/
def isFree (s : RawShortName) : Bool := s.name.get 0 == 0x00 || s.name.get 0 == 0xE5

/-- `is_dir`. -/
def isDir (s : RawShortName) : Bool := Bitflags.contains s.attributes.toNat Attr.DIRECTORY

/-- `cid`: the first cluster of the entry's chain. -/
def cid (s : RawShortName) : Nat := s.clusterH16.toNat * 65536 + s.clusterL16.toNat

/-- `checksum`: the check byte every long entry of the name carries. -/
def checksum (s : RawShortName) : UInt8 :=
  (s.name.toList ++ s.ext.toList).foldl (fun a c => rotateRight1 a + c) 0

/-- `get_name`: the base name up to its padding, then a dot and the extension
unless the extension starts with padding; `reversed` sets the case. -/
def getName (s : RawShortName) : List UInt8 :=
  let nameLower := s.reversed &&& 0x08 != 0
  let extUpper := s.reversed &&& 0x10 != 0
  let base := (s.name.toList.takeWhile (· != 0x20)).map fun ch =>
    if nameLower then toAsciiLowercase ch else ch
  if s.ext[0] == 0x20 then base
  else
    base ++ 0x2E :: (s.ext.toList.takeWhile (· != 0x20)).map fun ch =>
      if extUpper then toAsciiUppercase ch else ch

end RawShortName

/-- The fields of `RawLongName` that the file system reads. -/
structure RawLongName where
  /-- `[0|last|reverse|order]`. -/
  order : UInt8
  /-- The thirteen units of `p1`, `p2` and `p3`, as `store_name` copies them out. -/
  name : Vector UInt16 13
  checksum : UInt8
  deriving DecidableEq, Repr

namespace RawLongName

/-- `is_last`: the first entry of a name, which carries its last units. -/
def isLast (l : RawLongName) : Bool := l.order &&& 0x40 != 0

/-- `order_num`. -/
def orderNum (l : RawLongName) : Nat := (l.order &&& 0x1F).toNat

/-- `set` on a zeroed entry, then `RawName::from_long`: `load_name` puts units 0-4
in `p1`, 5-10 in `p2` and 11-12 in `p3`. -/
def toRaw (name : Vector UInt16 13) (order : Nat) (last : Bool) (checksum : UInt8) : RawName :=
  ⟨(((if last then (1 : UInt8) else 0) <<< 6 ||| order.toUInt8) ::
      [name[0], name[1], name[2], name[3], name[4]].flatMap le16 ++
      [(Bitflags.fromBitsTruncate Attr.all 0x0F).toUInt8, 0, checksum] ++
      [name[5], name[6], name[7], name[8], name[9], name[10]].flatMap le16 ++
      ([0, 0] : List UInt8) ++ [name[11], name[12]].flatMap le16).toArray, by simp [le16]⟩

end RawLongName

/-- `Name`: what `RawName::get` finds in a used slot. -/
inductive Name where
  | short (s : RawShortName)
  | long (l : RawLongName)
  deriving DecidableEq, Repr

namespace RawName

/-- The first byte: the short name's first character, the long entry's order. -/
def order (r : RawName) : UInt8 := r[0]

/-- `attributes`: byte 11 in both readings. -/
def attributes (r : RawName) : UInt8 := r[11]

/-- `is_free`. -/
def isFree (r : RawName) : Bool := r.order == 0x00 || r.order == 0xE5

/-- `is_long`. -/
def isLong (r : RawName) : Bool := !r.isFree && r.attributes == 0x0F

/-- The slot read as a short entry. -/
def short (r : RawName) : RawShortName where
  name := Vector.ofFn fun i => r[i.1]
  ext := Vector.ofFn fun i => r[8 + i.1]
  attributes := r[11]
  reversed := r[12]
  clusterH16 := u16At r.toList 20
  clusterL16 := u16At r.toList 26
  fileBytes := u32At r.toList 28

/-- `store_name`: the units of `p1`, `p2` and `p3` in order. -/
def storeName (r : RawName) : Vector UInt16 13 :=
  #v[u16At r.toList 1, u16At r.toList 3, u16At r.toList 5, u16At r.toList 7, u16At r.toList 9,
    u16At r.toList 14, u16At r.toList 16, u16At r.toList 18, u16At r.toList 20,
    u16At r.toList 22, u16At r.toList 24, u16At r.toList 28, u16At r.toList 30]

/-- The slot read as a long entry. -/
def long (r : RawName) : RawLongName := ⟨r[0], r.storeName, r[13]⟩

/-- `get`: nothing in a free slot, else the long or the short entry. -/
def get (r : RawName) : Option Name :=
  if r.isFree then none else some (if r.isLong then .long r.long else .short r.short)

/-- `from_short`: the bytes of a short entry, its times zero. -/
def fromShort (s : RawShortName) : RawName :=
  ⟨(s.name.toList ++ s.ext.toList ++ [s.attributes, s.reversed, 0] ++ le16 0 ++ le16 0 ++
      le16 0 ++ le16 s.clusterH16 ++ le16 0 ++ le16 0 ++ le16 s.clusterL16 ++
      le32 s.fileBytes).toArray, by simp⟩

/-- `set_free`. -/
def setFree (r : RawName) : RawName := r.set 0 0xE5

/-- `alloc_init`. -/
def allocInit (r : RawName) : RawName := r.set 0 0x00

/-- `cluster_init`: every slot of a fresh directory cluster free. -/
def clusterInit (buf : List RawName) : List RawName := buf.map allocInit

/-! ### Reading back what was written -/

@[simp] theorem order_setFree (r : RawName) : r.setFree.order = 0xE5 := by
  simp [setFree, order]

@[simp] theorem isFree_setFree (r : RawName) : r.setFree.isFree = true := by
  simp [isFree]

@[simp] theorem isFree_allocInit (r : RawName) : r.allocInit.isFree = true := by
  simp [isFree, allocInit, order]

@[simp] theorem order_fromShort (s : RawShortName) : (fromShort s).order = s.name.get 0 := by
  simp [fromShort, order, Vector.get]

@[simp] theorem attributes_fromShort (s : RawShortName) :
    (fromShort s).attributes = s.attributes := by
  simp [fromShort, attributes]

/-- A short entry written to a slot reads back whole. -/
@[simp] theorem short_fromShort (s : RawShortName) : (fromShort s).short = s := by
  obtain ⟨name, ext, attributes, reversed, h16, l16, bytes⟩ := s
  simp only [short, fromShort, RawShortName.mk.injEq]
  refine ⟨?name, ?ext, by simp, by simp, ?h16, ?l16, ?bytes⟩
  case name =>
    ext i hi
    simp [List.getElem_append_left]
  case ext =>
    ext i hi
    simp [List.getElem_append_left, List.getElem_append_right]
  case h16 => apply u16At_of_getElem? <;> simp [le16]
  case l16 => apply u16At_of_getElem? <;> simp [le16]
  case bytes => apply u32At_of_getElem? <;> simp [le16, le32]

/-- A used short entry is found as one, unless its attributes read `0x0F`. -/
theorem get_fromShort {s : RawShortName} (used : s.isFree = false)
    (notLong : s.attributes ≠ 0x0F) : (fromShort s).get = some (.short s) := by
  have free : (fromShort s).isFree = false := by
    simpa [isFree, RawShortName.isFree] using used
  simp [get, free, isLong, notLong]

end RawName

namespace RawLongName

@[simp] theorem order_toRaw (name : Vector UInt16 13) (order : Nat) (last : Bool) (cs : UInt8) :
    (toRaw name order last cs).order = (if last then (1 : UInt8) else 0) <<< 6 ||| order.toUInt8 := by
  simp [toRaw, RawName.order]

@[simp] theorem attributes_toRaw (name : Vector UInt16 13) (order : Nat) (last : Bool)
    (cs : UInt8) : (toRaw name order last cs).attributes = 0x0F := by
  simp [toRaw, RawName.attributes, le16]
  decide

/-- The units written by `set` read back in order through `store_name`. -/
@[simp] theorem storeName_toRaw (name : Vector UInt16 13) (order : Nat) (last : Bool)
    (cs : UInt8) : (toRaw name order last cs).storeName = name := by
  refine Vector.ext fun i hi => ?_
  interval_cases i <;> apply u16At_of_getElem? <;> simp [toRaw, le16]

@[simp] theorem long_toRaw (name : Vector UInt16 13) (order : Nat) (last : Bool) (cs : UInt8) :
    (toRaw name order last cs).long =
      ⟨(if last then (1 : UInt8) else 0) <<< 6 ||| order.toUInt8, name, cs⟩ := by
  simp only [RawName.long, storeName_toRaw, RawLongName.mk.injEq]
  refine ⟨?_, ?_⟩ <;> simp [toRaw, le16]

/-- The order byte of an entry `set` with an order below 32. -/
theorem orderByte_facts {order : Nat} (small : order < 32) (last : Bool) :
    let b := (if last then (1 : UInt8) else 0) <<< 6 ||| order.toUInt8
    (b &&& 0x40 != 0) = last ∧ (b &&& 0x1F).toNat = order ∧
      (0 < order → (b == 0x00 || b == 0xE5) = false) := by
  interval_cases order <;> cases last <;> decide

variable {name : Vector UInt16 13} {order : Nat} {last : Bool} {cs : UInt8}

theorem isLast_toRaw (small : order < 32) : (toRaw name order last cs).long.isLast = last := by
  simpa [isLast] using (orderByte_facts small last).1

theorem orderNum_toRaw (small : order < 32) : (toRaw name order last cs).long.orderNum = order := by
  simpa [orderNum] using (orderByte_facts small last).2.1

/-- A long entry `set` with an order in `1..31` is found as one. -/
theorem get_toRaw (pos : 0 < order) (small : order < 32) :
    (toRaw name order last cs).get = some (.long (toRaw name order last cs).long) := by
  have used : (toRaw name order last cs).isFree = false := by
    simpa [RawName.isFree] using (orderByte_facts small last).2.2 pos
  simp [RawName.get, used, RawName.isLong]

end RawLongName

end FtlOs
