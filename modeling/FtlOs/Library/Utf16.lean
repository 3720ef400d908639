import Mathlib.Init

/-!
# UTF-16

`encode_utf16` writes a character below `0x10000` as one unit and any other as
a surrogate pair; `char::decode_utf16` reads units back, reporting each unit
that is an unpaired surrogate.  Decoding what was encoded gives the characters
back, and the units of a string without `'\0'` are never zero.
-/

namespace Utf16

/-- The units of a character. -/
def encodeChar (c : Char) : List UInt16 :=
  if c.toNat < 0x10000 then [c.toNat.toUInt16]
  else
    let v := c.toNat - 0x10000
    [(0xD800 + v / 0x400).toUInt16, (0xDC00 + v % 0x400).toUInt16]

/-- `encode_utf16`. -/
def encode (s : List Char) : List UInt16 := s.flatMap encodeChar

/-- A unit outside the surrogate range is a character by itself. -/
def IsScalar (u : UInt16) : Prop := u.toNat < 0xD800 ∨ 0xDFFF < u.toNat

/-- A low surrogate, the second unit of a pair. -/
def IsLow (u : UInt16) : Prop := 0xDC00 ≤ u.toNat ∧ u.toNat ≤ 0xDFFF

instance (u : UInt16) : Decidable (IsScalar u) := inferInstanceAs (Decidable (_ ∨ _))

instance (u : UInt16) : Decidable (IsLow u) := inferInstanceAs (Decidable (_ ∧ _))

/-- The character of a surrogate pair. -/
def pair (hi lo : UInt16) : Char :=
  Char.ofNat (0x10000 + (hi.toNat - 0xD800) * 0x400 + (lo.toNat - 0xDC00))

/-- `char::decode_utf16`, holding `some hi` after a high surrogate `hi`: each
character, or the unpaired surrogate met.  A high surrogate followed by a unit
that is not a low one is reported, and that unit is read afresh. -/
def decodeWith : Option UInt16 → List UInt16 → List (Except UInt16 Char)
  | none, [] => []
  | some hi, [] => [.error hi]
  | none, u :: rest =>
    if IsScalar u then .ok (Char.ofNat u.toNat) :: decodeWith none rest
    else if 0xDC00 ≤ u.toNat then .error u :: decodeWith none rest
    else decodeWith (some u) rest
  | some hi, u :: rest =>
    if IsLow u then .ok (pair hi u) :: decodeWith none rest
    else .error hi ::
      if IsScalar u then .ok (Char.ofNat u.toNat) :: decodeWith none rest
      else decodeWith (some u) rest

/-- `char::decode_utf16`. -/
def decode (units : List UInt16) : List (Except UInt16 Char) := decodeWith none units

@[simp] theorem encode_nil : encode [] = [] := rfl

@[simp] theorem encode_cons (c : Char) (s : List Char) :
    encode (c :: s) = encodeChar c ++ encode s := rfl

theorem encodeChar_ne_nil (c : Char) : encodeChar c ≠ [] := by
  unfold encodeChar
  split <;> simp

theorem encode_ne_nil {s : List Char} (nonempty : s ≠ []) : encode s ≠ [] := by
  obtain ⟨c, rest, rfl⟩ := List.exists_cons_of_ne_nil nonempty
  simp [encodeChar_ne_nil]

theorem toNat_lt (c : Char) : c.toNat < 0x110000 := by
  rcases c.valid with low | ⟨-, high⟩
  · exact Nat.lt_trans low (by decide)
  · exact high

theorem not_surrogate (c : Char) : c.toNat < 0xD800 ∨ 0xDFFF < c.toNat := by
  rcases c.valid with low | ⟨above, -⟩
  · exact .inl low
  · exact .inr above

/-- Decoding reads an encoded character back off the front. -/
theorem decode_encodeChar_append (c : Char) (rest : List UInt16) :
    decode (encodeChar c ++ rest) = .ok c :: decode rest := by
  unfold encodeChar decode
  by_cases bmp : c.toNat < 0x10000
  · have unit : c.toNat.toUInt16.toNat = c.toNat := by simp; omega
    have scalar : IsScalar c.toNat.toUInt16 := by rw [IsScalar, unit]; exact not_surrogate c
    simp only [bmp, if_true, List.cons_append, List.nil_append, decodeWith, scalar, unit,
      Char.ofNat_toNat]
  · have big := toNat_lt c
    have hi : (0xD800 + (c.toNat - 0x10000) / 0x400).toUInt16.toNat =
        0xD800 + (c.toNat - 0x10000) / 0x400 := by simp; omega
    have lo : (0xDC00 + (c.toNat - 0x10000) % 0x400).toUInt16.toNat =
        0xDC00 + (c.toNat - 0x10000) % 0x400 := by simp; omega
    have high : ¬IsScalar (0xD800 + (c.toNat - 0x10000) / 0x400).toUInt16 := by
      rw [IsScalar, hi]; omega
    have low : IsLow (0xDC00 + (c.toNat - 0x10000) % 0x400).toUInt16 := by
      rw [IsLow, lo]; omega
    have joined : pair (0xD800 + (c.toNat - 0x10000) / 0x400).toUInt16
        (0xDC00 + (c.toNat - 0x10000) % 0x400).toUInt16 = c := by
      rw [pair, hi, lo, show 0x10000 + (0xD800 + (c.toNat - 0x10000) / 0x400 - 0xD800) * 0x400 +
        (0xDC00 + (c.toNat - 0x10000) % 0x400 - 0xDC00) = c.toNat by omega, Char.ofNat_toNat]
    simp only [bmp, if_false, List.cons_append, List.nil_append, decodeWith, high, low, if_true,
      joined]
    rw [if_neg (by omega)]

/-- Decoding the units of a string gives its characters. -/
theorem decode_encode (s : List Char) : decode (encode s) = s.map .ok := by
  induction s with
  | nil => rfl
  | cons c s ih => rw [encode_cons, decode_encodeChar_append, ih, List.map_cons]

/-- Only `'\0'` has a zero unit. -/
theorem encodeChar_ne_zero {c : Char} (nonzero : c.toNat ≠ 0) : ∀ u ∈ encodeChar c, u ≠ 0 := by
  have big := toNat_lt c
  have ne : ∀ n : Nat, n < 0x10000 → n ≠ 0 → n.toUInt16 ≠ 0 := by
    intro n small pos zero
    have := congrArg UInt16.toNat zero
    simp at this
    omega
  intro u mem
  unfold encodeChar at mem
  by_cases bmp : c.toNat < 0x10000
  · rw [if_pos bmp, List.mem_singleton] at mem
    exact mem ▸ ne _ bmp nonzero
  · rw [if_neg bmp] at mem
    simp only [List.mem_cons, List.not_mem_nil, or_false] at mem
    rcases mem with rfl | rfl
    · exact ne _ (by omega) (by omega)
    · exact ne _ (by omega) (by omega)

theorem encode_ne_zero {s : List Char} (nonzero : ∀ c ∈ s, c.toNat ≠ 0) :
    ∀ u ∈ encode s, u ≠ 0 := by
  intro u mem
  obtain ⟨c, inS, inC⟩ := List.mem_flatMap.mp mem
  exact encodeChar_ne_zero (nonzero c inS) u inC

end Utf16
