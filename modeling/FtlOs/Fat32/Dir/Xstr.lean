import FtlOs.Fat32.Dir.Name
import FtlOs.Library.Utf16
import FtlOs.Util.Error

/-!
# File names

`name_check` trims a name and refuses the empty name, names too long for a
long entry and names with a control character or one of `\ / : * ? " < > |`.
`str_to_just_short` gives the 8.3 form of a name that needs no long entry;
`str_to_utf16` cuts the UTF-16 units of a name into the thirteen-unit pieces of
its long entries, and `utf16_to_string` joins them again.  `ShortFinder` makes
up a short name for a name that has a long one.

A name is a list of characters; `str.len()` and `str.bytes()` are its UTF-8
bytes.

`str_to_just_short` copies the extension with `ext[..ext_len]`, where `ext_len`
counts the dot as well: the lengths never agree, so every dotted name that
passes the checks before the copy panics, and no dotted name other than `.` and
`..` is found to be short.
-/

namespace FtlOs

/-- `str.as_bytes()`: the UTF-8 bytes of a name. -/
def utf8 (s : List Char) : List UInt8 := s.flatMap String.utf8EncodeChar

@[simp] theorem utf8_nil : utf8 [] = [] := rfl

@[simp] theorem utf8_cons (c : Char) (s : List Char) :
    utf8 (c :: s) = String.utf8EncodeChar c ++ utf8 s := rfl

/-- `name_trim`: spaces off the front, spaces and dots off the back, except for `.`
and `..`. -/
def nameTrim (str : List Char) : List Char :=
  if str = ['.'] ∨ str = ['.', '.'] then str
  else ((str.dropWhile (· == ' ')).reverse.dropWhile fun c => c == ' ' || c == '.').reverse

/-- The bytes `name_check` refuses: ASCII control characters and
`\ / : * ? " < > |`. -/
def isBadNameByte (c : UInt8) : Bool :=
  if 0x80 ≤ c then false
  else if c < 0x20 || c == 0x7F then true
  else [0x5C, 0x2F, 0x3A, 0x2A, 0x3F, 0x22, 0x3C, 0x3E, 0x7C].contains c

/-- `name_check`: the trimmed name, if it may name a file.  The UTF-8 check of
the source never fails on a `&str`. -/
def nameCheck (str : List Char) : SysR (List Char) :=
  let str := nameTrim str
  if str.isEmpty then .error .ENOENT
  else if 31 * 13 * 2 * 2 < (utf8 str).length then .error .ENAMETOOLONG
  else if (utf8 str).any isBadNameByte then .error .ENOENT
  else .ok str

/-- A name `name_check` passes is not empty and has no `'\0'`. -/
theorem nameCheck_ok {str name : List Char} (checked : nameCheck str = .ok name) :
    name ≠ [] ∧ ∀ c ∈ name, c.toNat ≠ 0 := by
  unfold nameCheck at checked
  dsimp only at checked
  split_ifs at checked with empty long bad
  cases checked
  refine ⟨fun nil => by simp [nil] at empty, fun c mem zero => bad ?_⟩
  -- `'\0'` is the byte 0, a control character
  have zeroByte : (0 : UInt8) ∈ utf8 (nameTrim str) :=
    List.mem_flatMap.mpr ⟨c, mem, by simp [String.utf8EncodeChar, show c.val.toNat = 0 from zero]⟩
  exact List.any_eq_true.mpr ⟨0, zeroByte, by decide⟩

/-- The bytes that keep a name from being its own short name: non-ASCII, space,
`+ , ; = [ ]` and lower case. -/
def isBadShortByte (c : UInt8) : Bool :=
  if 0x80 ≤ c then true
  else [0x20, 0x2B, 0x2C, 0x3B, 0x3D, 0x5B, 0x5D].contains c || (0x61 ≤ c && c ≤ 0x7A)

/-- The offset of the last `.`, found from the end. -/
def lastDot (bytes : List UInt8) : Option Nat :=
  bytes.zipIdx.reverse.findSome? fun (c, i) => if c == 0x2E then some i else none

/-- `dst[..k].copy_from_slice(src)`: a panic, `none`, unless `k` is within `dst`
and `src` has exactly `k` bytes. -/
def copyFromSlice {n : Nat} (dst : Vector UInt8 n) (k : Nat) (src : List UInt8) :
    Option (Vector UInt8 n) :=
  if k ≤ n ∧ src.length = k then
    some (Vector.ofFn fun j => if j.1 < k then src.getD j.1 0 else dst[j])
  else none

/-- `str_to_just_short`: `some (some (name, ext))` when the name is its own 8.3
name, `some none` when it is not; `none` is a panic. -/
def strToJustShort (str : List Char) : Option (Option (Vector UInt8 8 × Vector UInt8 3)) :=
  let bytes := utf8 str
  let name : Vector UInt8 8 := Vector.replicate 8 0x20
  let ext : Vector UInt8 3 := Vector.replicate 3 0x20
  if 12 < bytes.length then some none
  else if str = ['.'] then (copyFromSlice name 1 [0x2E]).map fun name => some (name, ext)
  else if str = ['.', '.'] then
    (copyFromSlice name 2 [0x2E, 0x2E]).map fun name => some (name, ext)
  else if bytes.any isBadShortByte then some none
  else
    match lastDot bytes with
    | some i =>
      let extLen := bytes.length - i
      if 8 < i || 3 < extLen || (bytes.take i).contains 0x2E then some none
      else do
        let name ← copyFromSlice name i (bytes.take i)
        let ext ← copyFromSlice ext extLen (bytes.drop (i + 1))
        return some (name, ext)
    | none =>
      if 8 < bytes.length then some none
      else (copyFromSlice name bytes.length bytes).map fun name => some (name, ext)

/-! ### The last dot -/

theorem lastDot_eq_some {bytes : List UInt8} {i : Nat} (found : lastDot bytes = some i) :
    i < bytes.length ∧ bytes[i]? = some 0x2E := by
  obtain ⟨⟨c, j⟩, mem, hit⟩ := List.exists_of_findSome?_eq_some found
  have dot : c = 0x2E ∧ j = i := by
    by_cases isDot : c = 0x2E
    · simp only [isDot, beq_self_eq_true, if_true, Option.some.injEq] at hit
      exact ⟨isDot, hit⟩
    · simp [isDot] at hit
  obtain ⟨rfl, rfl⟩ := dot
  have inList := List.mem_zipIdx (List.mem_reverse.mp mem)
  obtain ⟨-, bound, at_j⟩ := inList
  simp only [Nat.zero_add] at bound at_j
  exact ⟨bound, by simp [bound, at_j]⟩

/-! ### Where `str_to_just_short` panics -/

/-- What `str_to_just_short` does with a dotted name that passes the byte checks. -/
theorem strToJustShort_of_lastDot {str : List Char} {i : Nat} (fits : (utf8 str).length ≤ 12)
    (notOne : str ≠ ['.']) (notTwo : str ≠ ['.', '.'])
    (valid : (utf8 str).any isBadShortByte = false) (found : lastDot (utf8 str) = some i) :
    strToJustShort str =
      if 8 < i || 3 < (utf8 str).length - i || ((utf8 str).take i).contains 0x2E then some none
      else none := by
  have within := (lastDot_eq_some found).1
  unfold strToJustShort
  simp only [Nat.not_lt.mpr fits, if_false, notOne, notTwo, valid, Bool.false_eq_true, found]
  split_ifs with refused
  · rfl
  · -- the base name fits, the extension is one byte short
    obtain ⟨name, nameCopy⟩ : ∃ name,
        copyFromSlice (Vector.replicate 8 (0x20 : UInt8)) i ((utf8 str).take i) = some name := by
      unfold copyFromSlice
      rw [if_pos]
      · exact ⟨_, rfl⟩
      simp only [Bool.or_eq_true, decide_eq_true_eq, not_or, Nat.not_lt] at refused
      simp only [List.length_take]
      omega
    have extCopy : copyFromSlice (Vector.replicate 3 (0x20 : UInt8)) ((utf8 str).length - i)
        ((utf8 str).drop (i + 1)) = none := by
      unfold copyFromSlice
      rw [if_neg]
      simp only [List.length_drop, not_and]
      omega
    simp [nameCopy, extCopy]

/-- `str_to_just_short` panics exactly on the names that reach the copy of the
extension: at most twelve bytes, not `.` or `..`, only short-name bytes, the
last dot at most eight bytes in, no other dot before it, and at most three
bytes from it to the end, itself included.  The copy then gets one byte fewer
than it is told to take.  A dotted name other than `.` and `..` is never
found to be short. -/
theorem strToJustShort_panics_on_extension (str : List Char) :
    (strToJustShort str = none ↔
      (utf8 str).length ≤ 12 ∧ str ≠ ['.'] ∧ str ≠ ['.', '.'] ∧
        (utf8 str).any isBadShortByte = false ∧
        ∃ i, lastDot (utf8 str) = some i ∧ i ≤ 8 ∧ (utf8 str).length - i ≤ 3 ∧
          ((utf8 str).take i).contains 0x2E = false) ∧
    (str ≠ ['.'] → str ≠ ['.', '.'] → (lastDot (utf8 str)).isSome →
      ∀ r, strToJustShort str ≠ some (some r)) := by
  -- the branches that answer before a copy: too long, `.` and `..`, a refused byte
  by_cases long : 12 < (utf8 str).length
  · have answer : strToJustShort str = some none := by simp [strToJustShort, long]
    simp only [answer, reduceCtorEq, false_iff, ne_eq, Option.some.injEq, not_false_eq_true,
      implies_true, and_true]
    omega
  by_cases one : str = ['.']
  · subst one
    refine ⟨by simp only [ne_eq, not_true_eq_false, false_and, and_false, iff_false]; decide, ?_⟩
    intro notOne
    exact absurd rfl notOne
  by_cases two : str = ['.', '.']
  · subst two
    refine ⟨by simp only [ne_eq, not_true_eq_false, false_and, and_false, iff_false]; decide, ?_⟩
    intro _ notTwo
    exact absurd rfl notTwo
  have fits := Nat.not_lt.mp long
  by_cases refused : (utf8 str).any isBadShortByte = true
  · have answer : strToJustShort str = some none := by
      simp [strToJustShort, long, one, two, refused]
    simp only [answer, reduceCtorEq, refused, false_iff, ne_eq, Option.some.injEq,
      not_false_eq_true, implies_true, and_true]
    simp
  have valid : (utf8 str).any isBadShortByte = false := by simpa using refused
  cases found : lastDot (utf8 str) with
  | some i =>
    rw [strToJustShort_of_lastDot fits one two valid found]
    have checks : (8 < i || 3 < (utf8 str).length - i || ((utf8 str).take i).contains 0x2E) = false ↔
        i ≤ 8 ∧ (utf8 str).length - i ≤ 3 ∧ ((utf8 str).take i).contains 0x2E = false := by
      simp only [Bool.or_eq_false_iff, decide_eq_false_iff_not, Nat.not_lt, and_assoc]
    refine ⟨⟨fun panics => ?_, fun ⟨_, _, _, _, j, at_j, passes⟩ => ?_⟩, fun _ _ _ r => ?_⟩
    · split_ifs at panics with refusedAt
      exact ⟨fits, one, two, valid, i, rfl, checks.mp (by simpa using refusedAt)⟩
    · rw [Option.some.injEq] at at_j
      subst at_j
      rw [if_neg (by simpa using checks.mpr passes)]
    · split_ifs <;> simp
  | none =>
    -- a name without a dot is copied whole when it fits
    have answers : strToJustShort str ≠ none := by
      simp only [strToJustShort, long, one, two, valid, found, if_false, Bool.false_eq_true]
      split_ifs with tooLong
      · simp
      · simp [copyFromSlice, Nat.le_of_not_lt tooLong]
    simp [answers]

/-- `A.TX` passes `name_check` and panics in `str_to_just_short`; `A.TXT`, whose
extension has three characters, is found not to be short. -/
theorem strToJustShort_panics_on_A_TX :
    nameCheck ['A', '.', 'T', 'X'] = .ok ['A', '.', 'T', 'X'] ∧
      strToJustShort ['A', '.', 'T', 'X'] = none ∧
      strToJustShort ['A', '.', 'T', 'X', 'T'] = some none :=
  ⟨by decide, (strToJustShort_panics_on_extension _).1.mpr
    ⟨by decide, by decide, by decide, by decide, 1, by decide, by decide, by decide, by decide⟩,
    by decide⟩

/-! ## Long names in pieces -/

/-- `v.last_mut().unwrap()[i] = u`; the loop has always pushed a piece before it
writes one. -/
def setLast (v : List (Vector UInt16 13)) (i : Nat) (u : UInt16) : List (Vector UInt16 13) :=
  match v.getLast? with
  | some last => v.dropLast ++ [last.setIfInBounds i u]
  | none => v

/-- The loop of `str_to_utf16`: each unit goes to place `i` of the last piece, a
new piece of `0xFF` units being pushed when `i` is 0; a 32nd piece is
`ENAMETOOLONG`. -/
def strToUtf16Loop : List UInt16 → List (Vector UInt16 13) → Nat →
    SysR (List (Vector UInt16 13) × Nat)
  | [], v, i => .ok (v, i)
  | ch :: rest, v, i =>
    if i = 0 ∧ v.length = 31 then .error .ENAMETOOLONG
    else
      let v := if i = 0 then v ++ [Vector.replicate 13 0xFF] else v
      strToUtf16Loop rest (setLast v i ch) (if 13 ≤ i + 1 then 0 else i + 1)

/-- `str_to_utf16`: the units of a name in pieces of thirteen, in order; a last
piece that is not full is ended by a zero unit and padded with `0xFF`. -/
def strToUtf16 (str : List Char) : SysR (List (Vector UInt16 13)) :=
  if str.isEmpty then .ok []
  else do
    let (v, i) ← strToUtf16Loop (Utf16.encode str) [] 0
    return if i ≠ 0 then setLast v i 0 else v

/-- `utf16_to_string`: the pieces, given the last first, joined in order up to
the first zero unit and decoded, an unpaired surrogate read as U+FFFD. -/
def utf16ToString (src : List (Vector UInt16 13)) : List Char :=
  (Utf16.decode ((src.reverse.flatMap Vector.toList).takeWhile (· != 0))).map fun r =>
    match r with
    | .ok c => c
    | .error _ => '\uFFFD'

@[simp] theorem utf16ToString_nil : utf16ToString [] = [] := rfl

/-- The units of the pieces, in order. -/
def units (v : List (Vector UInt16 13)) : List UInt16 := v.flatMap Vector.toList

@[simp] theorem units_append (v w : List (Vector UInt16 13)) :
    units (v ++ w) = units v ++ units w := by
  simp [units]

@[simp] theorem units_singleton (x : Vector UInt16 13) : units [x] = x.toList := by
  simp [units]

theorem length_units (v : List (Vector UInt16 13)) : (units v).length = 13 * v.length := by
  induction v with
  | nil => rfl
  | cons x v ih =>
    simp only [units, List.flatMap_cons, List.length_append, Vector.length_toList] at ih ⊢
    rw [ih, List.length_cons]
    omega

@[simp] theorem length_setLast (v : List (Vector UInt16 13)) (i : Nat) (u : UInt16) :
    (setLast v i u).length = v.length := by
  unfold setLast
  split
  case h_1 last found =>
    rw [List.length_append, List.length_dropLast, List.length_singleton]
    have : v ≠ [] := fun empty => by simp [empty] at found
    have := List.length_pos_iff.mpr this
    omega
  case h_2 => rfl

/-- Writing unit `i` of the last piece writes unit `13 * (n - 1) + i` of all. -/
theorem units_setLast {v : List (Vector UInt16 13)} (nonempty : v ≠ []) {i : Nat} (u : UInt16) :
    units (setLast v i u) = (units v).set (13 * (v.length - 1) + i) u := by
  obtain ⟨init, last, rfl⟩ := List.eq_nil_or_concat v |>.resolve_left nonempty
  simp only [List.concat_eq_append, setLast, List.getLast?_append, List.getLast?_singleton,
    Option.some_or, List.dropLast_concat, units_append, units_singleton, List.length_append,
    List.length_singleton, Nat.add_sub_cancel]
  rw [List.set_append_right _ _ (by rw [length_units]; omega), length_units, Nat.add_sub_cancel_left,
    Vector.toList_setIfInBounds]

/-- The pieces hold the units `p` read so far, padded with `0xFF` to a whole
number of pieces. -/
structure Pieces (p : List UInt16) (v : List (Vector UInt16 13)) : Prop where
  units_eq : units v = p ++ List.replicate ((13 - p.length % 13) % 13) 0xFF
  length_eq : v.length = (p.length + 12) / 13

/-- One unit of the loop of `str_to_utf16`. -/
theorem Pieces.step {p : List UInt16} {v : List (Vector UInt16 13)} (pieces : Pieces p v)
    (room : p.length < 31 * 13) (ch : UInt16) :
    ¬(p.length % 13 = 0 ∧ v.length = 31) ∧
      Pieces (p ++ [ch]) (setLast (if p.length % 13 = 0 then v ++ [Vector.replicate 13 0xFF] else v)
        (p.length % 13) ch) := by
  have lengthEq := pieces.length_eq
  -- before the write: the pieces end with `13 - i` bytes of padding
  have pushed : Pieces p v → units (if p.length % 13 = 0 then v ++ [Vector.replicate 13 0xFF] else v) =
        p ++ List.replicate (13 - p.length % 13) 0xFF ∧
      (if p.length % 13 = 0 then v ++ [Vector.replicate 13 0xFF] else v).length =
        p.length / 13 + 1 := by
    intro pieces
    by_cases whole : p.length % 13 = 0
    · simp only [whole, if_true, units_append, pieces.units_eq, units_singleton,
        Vector.toList_replicate, List.length_append, List.length_singleton, pieces.length_eq,
        Nat.sub_zero, Nat.mod_self, List.replicate_zero, List.append_nil]
      exact ⟨trivial, by omega⟩
    · simp only [whole, if_false, pieces.units_eq, pieces.length_eq]
      exact ⟨by rw [Nat.mod_eq_of_lt (by omega)], by omega⟩
  obtain ⟨before, count⟩ := pushed pieces
  refine ⟨by omega, ⟨?_, ?_⟩⟩
  · have nonempty : (if p.length % 13 = 0 then v ++ [Vector.replicate 13 0xFF] else v) ≠ [] := by
      intro empty
      rw [empty, List.length_nil] at count
      omega
    rw [units_setLast nonempty, before, count, Nat.add_sub_cancel,
      show 13 * (p.length / 13) + p.length % 13 = p.length + 0 by omega,
      List.set_append_right _ _ (by omega), Nat.add_sub_cancel_left,
      show 13 - p.length % 13 = (12 - p.length % 13) + 1 by omega, List.replicate_succ,
      List.set_cons_zero, List.length_append, List.length_singleton,
      show (13 - (p.length + 1) % 13) % 13 = 12 - p.length % 13 by omega, List.append_assoc,
      List.singleton_append]
  · rw [length_setLast, count, List.length_append, List.length_singleton]
    omega

/-- The loop of `str_to_utf16` reads every unit when they fit in 31 pieces. -/
theorem strToUtf16Loop_spec (rest : List UInt16) :
    ∀ (p : List UInt16) (v : List (Vector UInt16 13)), Pieces p v →
      (p ++ rest).length ≤ 31 * 13 →
      ∃ w, strToUtf16Loop rest v (p.length % 13) = .ok (w, (p ++ rest).length % 13) ∧
        Pieces (p ++ rest) w := by
  induction rest with
  | nil => intro p v pieces _; exact ⟨v, by simp [strToUtf16Loop], by simpa using pieces⟩
  | cons ch rest ih =>
    intro p v pieces fits
    have room : p.length < 31 * 13 := by simp at fits; omega
    obtain ⟨guard, next⟩ := pieces.step room ch
    obtain ⟨w, run, final⟩ := ih (p ++ [ch]) _ next (by simpa using fits)
    refine ⟨w, ?_, by simpa using final⟩
    rw [strToUtf16Loop, if_neg guard]
    simp only [List.length_append, List.length_singleton] at run
    rw [show (if 13 ≤ p.length % 13 + 1 then 0 else p.length % 13 + 1) = (p.length + 1) % 13 by
      split <;> omega, run]
    simp only [List.length_append, List.length_cons]
    congr 3
    omega

/-- `str_to_utf16` of a name whose units fit in 31 pieces: the units in order,
then, when the last piece is not full, a zero unit and `0xFF` padding. -/
theorem strToUtf16_spec {str : List Char} (nonempty : str ≠ [])
    (fits : (Utf16.encode str).length ≤ 31 * 13) :
    ∃ v, strToUtf16 str = .ok v ∧ v.length = ((Utf16.encode str).length + 12) / 13 ∧
      units v = Utf16.encode str ++
        if (Utf16.encode str).length % 13 = 0 then []
        else 0 :: List.replicate (12 - (Utf16.encode str).length % 13) 0xFF := by
  have start : Pieces [] [] := ⟨rfl, rfl⟩
  obtain ⟨w, run, pieces⟩ := strToUtf16Loop_spec (Utf16.encode str) [] [] start fits
  simp only [List.nil_append, List.length_nil, Nat.zero_mod] at run pieces
  have notEmpty : str.isEmpty = false := List.isEmpty_eq_false_iff.mpr nonempty
  simp only [strToUtf16, notEmpty, run, Bool.false_eq_true, if_false]
  by_cases whole : (Utf16.encode str).length % 13 = 0
  · refine ⟨w, by simp [whole], pieces.length_eq, ?_⟩
    rw [pieces.units_eq, whole]
    simp
  · -- the zero unit goes right after the last unit
    have nonemptyW : w ≠ [] := by
      intro empty
      have := pieces.length_eq
      rw [empty, List.length_nil] at this
      omega
    refine ⟨setLast w ((Utf16.encode str).length % 13) 0, by simp [whole],
      by rw [length_setLast, pieces.length_eq], ?_⟩
    rw [units_setLast nonemptyW, pieces.units_eq, pieces.length_eq,
      show 13 * (((Utf16.encode str).length + 12) / 13 - 1) + (Utf16.encode str).length % 13 =
        (Utf16.encode str).length + 0 by omega,
      List.set_append_right _ _ (by omega), Nat.add_sub_cancel_left,
      show (13 - (Utf16.encode str).length % 13) % 13 = (12 - (Utf16.encode str).length % 13) + 1 by
        omega,
      List.replicate_succ, List.set_cons_zero, if_neg whole]

/-- Joining the pieces `str_to_utf16` cut gives the name back, when it has no
`'\0'`; `utf16_to_string` takes the pieces last first. -/
theorem utf16ToString_of_strToUtf16 {str : List Char} {v : List (Vector UInt16 13)}
    (nonzero : ∀ c ∈ str, c.toNat ≠ 0)
    (cut : units v = Utf16.encode str ++
      if (Utf16.encode str).length % 13 = 0 then []
      else 0 :: List.replicate (12 - (Utf16.encode str).length % 13) 0xFF) :
    utf16ToString v.reverse = str := by
  have noZero := Utf16.encode_ne_zero nonzero
  have upToZero : (units v).takeWhile (· != 0) = Utf16.encode str := by
    rw [cut, List.takeWhile_append_of_pos (fun u mem => by simpa using noZero u mem)]
    split
    · simp
    · simp
  simp only [utf16ToString, List.reverse_reverse]
  rw [show v.flatMap Vector.toList = units v from rfl, upToZero, Utf16.decode_encode,
    List.map_map]
  conv => rhs; rw [← List.map_id str]
  rfl

/-! ## Short names for long names -/

/-- The byte `ShortFinder::new` puts in a short name for a character, `none` for a
dot, which it drops; and whether the character was replaced by `_`. -/
def charForward (c : Char) : Option UInt8 × Bool :=
  if c = '_' then (some 0x5F, false)
  else
    let b := c.toNat.toUInt8
    let mapped : Option UInt8 :=
      if 0x80 ≤ c.toNat then some 0x5F
      else if [0x2B, 0x2C, 0x3B, 0x3D, 0x5B, 0x5D].contains b then some 0x5F
      else if b = 0x2E then none
      else some (toAsciiUppercase b)
    match mapped with
    | none => (none, false)
    | some b => (some b, b == 0x5F)

/-- The loop that fills the base name or the extension with at most `cap` bytes:
the bytes taken, `force` once a byte is left over, and whether a character was
replaced.  The loop stops at the first byte left over. -/
def fillLoop (cap : Nat) : List Char → List UInt8 → Bool → Bool → List UInt8 × Bool × Bool
  | [], taken, force, invalid => (taken, force, invalid)
  | c :: rest, taken, force, invalid =>
    let (b, replaced) := charForward c
    let invalid := invalid || replaced
    match b with
    | none => fillLoop cap rest taken force invalid
    | some b =>
      if taken.length = cap then (taken, true, invalid)
      else fillLoop cap rest (taken ++ [b]) force invalid

/-- The name before its last dot and the extension after it.  A dot is one byte,
found in the UTF-8 bytes of no other character, so the byte offset of the last
dot splits the characters at the last `'.'`. -/
def splitLastDot (src : List Char) : List Char × List Char :=
  match src.zipIdx.reverse.findSome? fun (c, i) => if c = '.' then some i else none with
  | some i => (src.take i, src.drop (i + 1))
  | none => (src, [])

/-- `get_hash`. -/
def getHash (src : List Char) : UInt16 :=
  (utf8 src).foldl (fun v x => v * 13719 + 9715 + x.toUInt16) 5234

/-- `ShortFinder`: the short name in the making for a name, and what `record` has
seen of the short names of the directory. -/
structure ShortFinder where
  name : Vector UInt8 8
  ext : Vector UInt8 3
  shortOnly : Bool
  nameLen : Nat
  /-- A `~` suffix is needed whatever the directory holds. -/
  force : Bool
  /-- The directory holds the name as it is. -/
  haveSame : Bool
  /-- The digits `x` of the names `PREFIX~x` the directory holds; slot 0 is unused. -/
  numMask : Vector Bool 10
  hash : UInt16
  deriving DecidableEq, Repr

namespace ShortFinder

/-- A zeroed finder. -/
def zeroed : ShortFinder :=
  ⟨Vector.replicate 8 0, Vector.replicate 3 0, false, 0, false, false, Vector.replicate 10 false, 0⟩

/-- `new`; `none` when `str_to_just_short` panics. -/
def new (src : List Char) : Option ShortFinder := do
  match ← strToJustShort src with
  | some (name, ext) => return { zeroed with name, ext, shortOnly := true }
  | none =>
    let (nameStr, extStr) := splitLastDot src
    let (name, force, invalid) := fillLoop 8 nameStr [] false false
    let (ext, force, invalid) := fillLoop 3 extStr [] force invalid
    return { zeroed with
      name := Vector.ofFn fun j => name.getD j.1 0x20
      ext := Vector.ofFn fun j => ext.getD j.1 0x20
      nameLen := name.length
      force := force || invalid
      hash := getHash src }

/-- `record`: a short entry of the directory.  It counts when its extension is
the finder's and its name is the finder's, or is `PREFIX~x` with `PREFIX` the
first `min(name_len, 6)` bytes of the finder's name and `x` a digit. -/
def record (f : ShortFinder) (short : RawShortName) : ShortFinder :=
  if f.shortOnly || short.isFree then f
  else if f.ext != short.ext then f
  else if f.name == short.name then { f with haveSame := true }
  else
    let checkP := min f.nameLen 6
    if (short.name.toList.zip (f.name.toList.take checkP)).any fun (c, this) => c != this then f
    else if short.name.toList.getD checkP 0 != 0x7E then f
    else
      let d := short.name.toList.getD (checkP + 1) 0
      if d < 0x30 || 0x39 < d then f
      else if (short.name.toList[checkP + 2]?).any (· != 0x20) then f
      else { f with numMask := f.numMask.setIfInBounds (d - 0x30).toNat true }

/-- `to_ascii`: the hexadecimal digit of the low four bits. -/
def toAscii (n : UInt16) : UInt8 :=
  let n := n.toUInt8 &&& 0xF
  if n < 10 then 0x30 + n else 0x41 + (n - 10)

/-- `u16_ascii`: four hexadecimal digits, the highest first. -/
def u16Ascii (n : UInt16) : Vector UInt8 4 :=
  #v[toAscii (n >>> 12), toAscii (n >>> 8), toAscii (n >>> 4), toAscii n]

/-- The first digit `x` in `1..9` no `PREFIX~x` of the directory uses. -/
def freeDigit (f : ShortFinder) : Option Nat :=
  (f.numMask.toList.zipIdx.drop 1).findSome? fun (r, i) => if !r then some i else none

/-- The name `PREFIX~x`: the first `sep` bytes, `~`, the digit, then padding. -/
def tildeName (name : Vector UInt8 8) (sep p : Nat) : Vector UInt8 8 :=
  Vector.ofFn fun j =>
    if j.1 < sep then name[j]
    else if j.1 = sep then 0x7E
    else if j.1 = sep + 1 then 0x30 + p.toUInt8
    else 0x20

/-- The name `apply` writes last, over all eight bytes: two bytes of the name,
four hexadecimal digits of the hash, `~4`. -/
def hashName (f : ShortFinder) (old : Vector UInt8 8) : Vector UInt8 8 :=
  let digits := u16Ascii f.hash
  let second := if f.nameLen ≤ 1 then f.name[0] else f.name[1]
  ((((((((old.set 0 f.name[0]).set 1 second).set 2 digits[0]).set 3 digits[1]).set 4
    digits[2]).set 5 digits[3]).set 6 0x7E).set 7 0x34)

/-- `apply`: the finder's name when no suffix is needed; otherwise `PREFIX~x` for
the first free digit, and then, in every case, the hash name over it. -/
def apply (f : ShortFinder) (dst : RawShortName) : RawShortName :=
  let dst := { dst with ext := f.ext }
  if f.shortOnly || (!f.force && !f.haveSame) then { dst with name := f.name }
  else
    let dst := match f.freeDigit with
      | some p => { dst with name := tildeName f.name (min f.nameLen 6) p }
      | none => dst
    { dst with name := hashName f dst.name }

/-- The hash name does not depend on what it is written over. -/
theorem hashName_eq (f : ShortFinder) (old : Vector UInt8 8) :
    hashName f old = #v[f.name[0], if f.nameLen ≤ 1 then f.name[0] else f.name[1],
      (u16Ascii f.hash)[0], (u16Ascii f.hash)[1], (u16Ascii f.hash)[2], (u16Ascii f.hash)[3],
      0x7E, 0x34] := by
  refine Vector.ext fun i hi => ?_
  interval_cases i <;> simp [hashName]

/-- A `PREFIX~x` name ends in `4` only when `x` is 4 and the prefix has six bytes. -/
theorem tildeName_last_ne {name : Vector UInt8 8} {sep p : Nat} (short : sep ≤ 6) (digit : p < 10)
    (notFour : p ≠ 4) : (tildeName name sep p)[7] ≠ 0x34 := by
  simp only [tildeName, Vector.getElem_ofFn]
  by_cases six : sep = 6
  · -- the digit is the last byte
    subst six
    interval_cases p <;> simp_all
  · -- the last byte is padding
    rw [if_neg (by omega), if_neg (by omega), if_neg (by omega)]
    decide

/-- Once a suffix is needed, `apply` writes the hash name whatever digits the
directory uses: the `PREFIX~x` it writes first is always overwritten.  So it
never gives `PREFIX~x` for a free digit other than 4. -/
theorem apply_writes_hash_name (f : ShortFinder) (dst : RawShortName)
    (longName : f.shortOnly = false) (suffixed : f.force = true ∨ f.haveSame = true) :
    (f.apply dst).name = #v[f.name[0], if f.nameLen ≤ 1 then f.name[0] else f.name[1],
      (u16Ascii f.hash)[0], (u16Ascii f.hash)[1], (u16Ascii f.hash)[2], (u16Ascii f.hash)[3],
      0x7E, 0x34] ∧
    ∀ p, p < 10 → p ≠ 4 → (f.apply dst).name ≠ tildeName f.name (min f.nameLen 6) p := by
  obtain ⟨old, named⟩ : ∃ old, (f.apply dst).name = hashName f old := by
    unfold apply
    rw [if_neg (by rcases suffixed with force | same <;> simp [*])]
    split <;> exact ⟨_, rfl⟩
  refine ⟨named.trans (hashName_eq f old), fun p digit notFour same => ?_⟩
  have last := congrArg (·[7]) same
  simp only [named, hashName_eq] at last
  exact tildeName_last_ne (Nat.min_le_right _ _) digit notFour
    (by simpa using last.symm)

/-- `longfilename.txt` in an empty directory gets `LO325F~4.TXT`, not
`LONGFI~1.TXT`; in a directory that already holds `LO325F~4.TXT`, which `record`
passes over, it gets that name again. -/
theorem apply_writes_hash_name_for_longfilename :
    ∃ f, ShortFinder.new ['l', 'o', 'n', 'g', 'f', 'i', 'l', 'e', 'n', 'a', 'm', 'e', '.', 't',
        'x', 't'] = some f ∧ f.shortOnly = false ∧ (f.force = true ∨ f.haveSame = true) ∧
      (f.apply RawShortName.zeroed).name = #v[0x4C, 0x4F, 0x33, 0x32, 0x35, 0x46, 0x7E, 0x34] ∧
      (f.apply RawShortName.zeroed).name ≠ tildeName f.name (min f.nameLen 6) 1 ∧
      f.record { RawShortName.zeroed with
        name := #v[0x4C, 0x4F, 0x33, 0x32, 0x35, 0x46, 0x7E, 0x34]
        ext := #v[0x54, 0x58, 0x54] } = f := by
  refine ⟨_, rfl, rfl, .inl rfl, ?_, ?_, by decide⟩
  · rw [(apply_writes_hash_name _ _ rfl (.inl rfl)).1]
    decide
  · exact (apply_writes_hash_name _ _ rfl (.inl rfl)).2 1 (by decide) (by decide)

end ShortFinder

end FtlOs
