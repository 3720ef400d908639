import Mathlib.Init

/-!
# Lossy UTF-8 decoding

`String::from_utf8_lossy` decodes bytes as UTF-8 and puts one U+FFFD for each
maximal part of an ill-formed sequence: a byte that cannot start a sequence, or
a start byte with the continuation bytes that follow it in range until one does
not.  The ranges are those of the well-formed byte sequences of the Unicode
standard; the second byte of a sequence has a range of its own after `E0`, `ED`,
`F0` and `F4`.  ASCII bytes decode to themselves.
-/

namespace Utf8

/-- The number of continuation bytes after a start byte, and the range of the
first of them; `none` for a byte that starts no sequence of two bytes or more. -/
def seqShape (b : UInt8) : Option (Nat × UInt8 × UInt8) :=
  if 0xC2 ≤ b ∧ b ≤ 0xDF then some (1, 0x80, 0xBF)
  else if b = 0xE0 then some (2, 0xA0, 0xBF)
  else if 0xE1 ≤ b ∧ b ≤ 0xEC ∨ 0xEE ≤ b ∧ b ≤ 0xEF then some (2, 0x80, 0xBF)
  else if b = 0xED then some (2, 0x80, 0x9F)
  else if b = 0xF0 then some (3, 0x90, 0xBF)
  else if 0xF1 ≤ b ∧ b ≤ 0xF3 then some (3, 0x80, 0xBF)
  else if b = 0xF4 then some (3, 0x80, 0x8F)
  else none

/-- How many of the next `n` bytes continue the sequence, the first in `lo..hi`
and the others in `80..BF`. -/
def contCount (n : Nat) (lo hi : UInt8) : List UInt8 → Nat
  | [] => 0
  | b :: rest =>
    if n = 0 then 0
    else if lo ≤ b ∧ b ≤ hi then 1 + contCount (n - 1) 0x80 0xBF rest
    else 0

/-- The code point of a start byte followed by its `n` continuation bytes. -/
def codePoint (b : UInt8) (n : Nat) (conts : List UInt8) : Nat :=
  conts.foldl (fun acc c => acc * 64 + (c.toNat &&& 0x3F)) (b.toNat &&& (0x7F >>> (n + 1)))

/-- The decoder, with fuel for the bytes left: each step reads at least one. -/
def decodeLossy : Nat → List UInt8 → List Char
  | 0, _ => []
  | _, [] => []
  | fuel + 1, b :: rest =>
    if b < 0x80 then Char.ofNat b.toNat :: decodeLossy fuel rest
    else
      match seqShape b with
      | none => '�' :: decodeLossy fuel rest
      | some (n, lo, hi) =>
        let k := contCount n lo hi rest
        if k = n then Char.ofNat (codePoint b n (rest.take n)) :: decodeLossy fuel (rest.drop n)
        else '�' :: decodeLossy fuel (rest.drop k)

/-- `String::from_utf8_lossy`. -/
def fromUtf8Lossy (bytes : List UInt8) : List Char := decodeLossy bytes.length bytes

end Utf8
