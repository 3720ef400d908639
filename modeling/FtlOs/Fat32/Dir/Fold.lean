import FtlOs.Fat32.Dir.Xstr
import FtlOs.Fat32.Inode.RawInode
import FtlOs.Library.Utf8

/-!
# Reading the names of a directory

`name_try_fold` walks the slots of a directory in order and hands its closure a
`DirName` for each short entry: the entry, and the long name spelled by the
long entries before it, which `LongNameBuilder` collects.  A long name is
written by `entry_generate` as its pieces, the last first, with orders counting
down to 1, the first flagged last, every one carrying the short entry's
checksum; the short entry follows.

`LongNameBuilder::clear` empties only the collected pieces.  The order reached,
the place of the first long entry and the checksum stay, so a short entry after
a named one, directly or after free slots, is reported with the place where the
other name's long entries start; `delete_entry` frees every slot from there.
-/

namespace FtlOs

/-- `EntryPlace`: where a slot is. -/
structure EntryPlace where
  /-- The cluster's offset in the directory's chain. -/
  clusterOff : Nat
  cid : Nat
  /-- The slot's offset in its cluster. -/
  entryOff : Nat
  deriving DecidableEq, Repr

/-- `LongNameBuilder`. -/
structure LongNameBuilder where
  /-- The pieces collected, in the order of the slots. -/
  long : List (Vector UInt16 13)
  /-- The order of the last long entry taken, 0 after a broken sequence. -/
  current : Nat
  startPlace : Option EntryPlace
  checksum : UInt8
  deriving DecidableEq, Repr

namespace LongNameBuilder

/-- `new`. -/
def new : LongNameBuilder := ⟨[], 0, none, 0⟩

/-- `success`: the long entries seen end with order 1. -/
def success (b : LongNameBuilder) : Bool := b.current == 1

/-- `clear`: only the pieces go. -/
def clear (b : LongNameBuilder) : LongNameBuilder := { b with long := [] }

/-- `push_long`: an entry flagged last starts a name; any other must come right
after the entry of the next order with the same checksum, or the sequence is
dropped. -/
def pushLong (b : LongNameBuilder) (s : RawLongName) (startPlace : EntryPlace) :
    LongNameBuilder :=
  let b :=
    if s.isLast then { b with current := s.orderNum, startPlace := some startPlace, checksum := s.checksum }
    else if b.current ≠ s.orderNum + 1 ∨ b.checksum ≠ s.checksum then { b with current := 0 }
    else b
  if b.current = 0 then { b with long := [], startPlace := none, checksum := 0 }
  else { b with current := s.orderNum, long := b.long ++ [s.name] }

/-- `decode_utf16`. -/
def decodeUtf16 (b : LongNameBuilder) : List Char :=
  if b.current ≠ 1 then [] else utf16ToString b.long

@[simp] theorem success_clear (b : LongNameBuilder) : b.clear.success = b.success := rfl

@[simp] theorem startPlace_clear (b : LongNameBuilder) : b.clear.startPlace = b.startPlace := rfl

@[simp] theorem current_clear (b : LongNameBuilder) : b.clear.current = b.current := rfl

@[simp] theorem long_clear (b : LongNameBuilder) : b.clear.long = [] := rfl

end LongNameBuilder

/-- `DirName`: a short entry and the long name before it. -/
structure DirName where
  long : List Char
  short : RawShortName
  startPlace : EntryPlace
  endPlace : EntryPlace
  deriving DecidableEq, Repr

namespace DirName

/-- `build_new`: the builder's name and start when it has a whole sequence,
else no long name and the short entry's own place. -/
def buildNew (builder : LongNameBuilder) (short : RawShortName) (endPlace : EntryPlace) : DirName :=
  if builder.success then ⟨builder.decodeUtf16, short, builder.startPlace.getD endPlace, endPlace⟩
  else ⟨[], short, endPlace, endPlace⟩

/-- `take_name`: the long name, or the short one read as UTF-8. -/
def takeName (d : DirName) : List Char :=
  if d.long.isEmpty then Utf8.fromUtf8Lossy d.short.getName else d.long

end DirName

/-- `entry_generate`: the long entries, the last piece first, with orders from
the number of pieces down to 1 and only the first flagged last, then the short
entry. -/
def entryGenerate (long : List (Vector UInt16 13)) (short : RawShortName) : List RawName :=
  let checksum := short.checksum
  (long.reverse.zipIdx.map fun (piece, k) =>
      RawLongName.toRaw piece (long.length - k) (k == 0) checksum) ++
    [RawName.fromShort short]

/-- `try_fold` over a list with a `ControlFlow` closure. -/
def tryFold {σ β γ : Type} (f : σ → γ → ControlFlow β σ) : List γ → σ → ControlFlow β σ
  | [], s => .cont s
  | x :: xs, s =>
    match f s x with
    | .cont s => tryFold f xs s
    | .stop b => .stop b

/-- The closure `name_try_fold` folds the slots with. -/
def nameStep {α β : Type} (f : α → DirName → ControlFlow β α) (state : α × LongNameBuilder)
    (slot : RawName × EntryPlace) : ControlFlow β (α × LongNameBuilder) :=
  let (accum, builder) := state
  let (raw, place) := slot
  match raw.get with
  | none => .cont (accum, builder.clear)
  | some (.long long) => .cont (accum, builder.pushLong long place)
  | some (.short s) =>
    match f accum (DirName.buildNew builder s place) with
    | .cont accum => .cont (accum, builder.clear)
    | .stop b => .stop b

/-- `name_try_fold` over the slots of a directory, in order, with their places. -/
def nameTryFold {α β : Type} (slots : List (RawName × EntryPlace)) (init : α)
    (f : α → DirName → ControlFlow β α) : ControlFlow β α :=
  match tryFold (nameStep f) slots (init, LongNameBuilder.new) with
  | .cont (a, _) => .cont a
  | .stop b => .stop b

/-- The `DirName`s `name_try_fold` hands its closure, from a builder `b`. -/
def parse (b : LongNameBuilder) : List (RawName × EntryPlace) → List DirName
  | [] => []
  | (raw, place) :: rest =>
    match raw.get with
    | none => parse b.clear rest
    | some (.long long) => parse (b.pushLong long place) rest
    | some (.short s) => DirName.buildNew b s place :: parse b.clear rest

/-! ### The fold is a fold over the names -/

section Parse

variable {b : LongNameBuilder} {raw : RawName} {place : EntryPlace}
  {rest : List (RawName × EntryPlace)}

@[simp] theorem parse_nil (b : LongNameBuilder) : parse b [] = [] := rfl

theorem parse_cons_free (free : raw.get = none) :
    parse b ((raw, place) :: rest) = parse b.clear rest := by
  simp [parse, free]

theorem parse_cons_long {l : RawLongName} (long : raw.get = some (.long l)) :
    parse b ((raw, place) :: rest) = parse (b.pushLong l place) rest := by
  simp [parse, long]

theorem parse_cons_short {s : RawShortName} (short : raw.get = some (.short s)) :
    parse b ((raw, place) :: rest) = DirName.buildNew b s place :: parse b.clear rest := by
  simp [parse, short]

/-- Free slots after a cleared builder change nothing. -/
theorem parse_frees (frees : List (RawName × EntryPlace)) (free : ∀ x ∈ frees, x.1.get = none)
    (rest : List (RawName × EntryPlace)) :
    parse b.clear (frees ++ rest) = parse b.clear rest := by
  induction frees with
  | nil => rfl
  | cons x frees ih =>
    obtain ⟨raw, place⟩ := x
    rw [List.cons_append, parse_cons_free (free _ List.mem_cons_self)]
    exact ih (fun y mem => free y (List.mem_cons_of_mem _ mem))

/-- `name_try_fold` runs its closure over the names `parse` reports, in order,
stopping where the closure breaks. -/
theorem nameStep_fold (f : α → DirName → ControlFlow β α) (slots : List (RawName × EntryPlace))
    (a : α) (b : LongNameBuilder) :
    (match tryFold (nameStep f) slots (a, b) with
      | .cont s => .cont s.1
      | .stop x => .stop x) = tryFold f (parse b slots) a := by
  induction slots generalizing a b with
  | nil => rfl
  | cons slot slots ih =>
    obtain ⟨raw, place⟩ := slot
    -- one slot: the builder changes, and a short entry goes to the closure
    cases found : raw.get with
    | none => simp only [tryFold, nameStep, found, parse_cons_free found, ih]
    | some name =>
      cases name with
      | long l => simp only [tryFold, nameStep, found, parse_cons_long found, ih]
      | short s =>
        rw [parse_cons_short found]
        simp only [tryFold, nameStep, found]
        cases f a (DirName.buildNew b s place) with
        | cont a' => exact ih a' b.clear
        | stop x => rfl

theorem nameTryFold_eq (slots : List (RawName × EntryPlace)) (init : α)
    (f : α → DirName → ControlFlow β α) :
    nameTryFold slots init f = tryFold f (parse LongNameBuilder.new slots) init := by
  rw [← nameStep_fold]
  unfold nameTryFold
  split <;> simp_all

end Parse

/-! ### A short entry after a named one -/

namespace LongNameBuilder

/-- A long entry flagged last starts a name, whatever came before. -/
theorem pushLong_last {l : RawLongName} (first : l.isLast = true) (pos : l.orderNum ≠ 0)
    (b : LongNameBuilder) (place : EntryPlace) :
    b.pushLong l place = ⟨b.long ++ [l.name], l.orderNum, some place, l.checksum⟩ := by
  simp [pushLong, first, pos]

/-- A long entry that follows the entry of the next order, with its checksum,
adds its piece. -/
theorem pushLong_next {l : RawLongName} {b : LongNameBuilder} (notFirst : l.isLast = false)
    (follows : b.current = l.orderNum + 1) (same : b.checksum = l.checksum) (place : EntryPlace) :
    b.pushLong l place = { b with current := l.orderNum, long := b.long ++ [l.name] } := by
  simp [pushLong, notFirst, follows, same]

end LongNameBuilder

/-- After a long-named short entry, the next short entry, right after it or after
free slots, is reported with no long name but with the place of the first
entry's long name as its start, while its own place is its end. -/
theorem parse_short_after_named_short (b : LongNameBuilder) {raw₁ raw₂ raw₃ : RawName}
    {l : RawLongName} {s₁ s₂ : RawShortName} (p q₁ q₂ : EntryPlace)
    (frees rest : List (RawName × EntryPlace))
    (longAt : raw₁.get = some (.long l)) (first : l.isLast = true) (one : l.orderNum = 1)
    (shortAt₁ : raw₂.get = some (.short s₁)) (free : ∀ x ∈ frees, x.1.get = none)
    (shortAt₂ : raw₃.get = some (.short s₂)) :
    ∃ tail, parse b ((raw₁, p) :: (raw₂, q₁) :: frees ++ (raw₃, q₂) :: rest) =
      ⟨utf16ToString (b.long ++ [l.name]), s₁, p, q₁⟩ :: ⟨[], s₂, p, q₂⟩ :: tail := by
  refine ⟨parse (b.pushLong l p).clear.clear rest, ?_⟩
  rw [List.cons_append, List.cons_append, parse_cons_long longAt, parse_cons_short shortAt₁,
    parse_frees frees free, parse_cons_short shortAt₂,
    LongNameBuilder.pushLong_last first (by rw [one]; decide), one]
  -- `clear` kept the order 1 and the start: the second entry still reads as named
  simp [DirName.buildNew, LongNameBuilder.success, LongNameBuilder.decodeUtf16,
    LongNameBuilder.clear]

/-- The short entry of a file `A~1`. -/
def namedFile : RawShortName :=
  { RawShortName.zeroed with
    name := #v[0x41, 0x7E, 0x31, 0x20, 0x20, 0x20, 0x20, 0x20]
    ext := #v[0x20, 0x20, 0x20]
    attributes := 0x20 }

/-- The short entry of a file `B`, whose name needs no long entry. -/
def shortOnlyFile : RawShortName :=
  { RawShortName.zeroed with
    name := #v[0x42, 0x20, 0x20, 0x20, 0x20, 0x20, 0x20, 0x20]
    ext := #v[0x20, 0x20, 0x20]
    attributes := 0x20 }

/-- The piece of the long name `a`. -/
def pieceA : Vector UInt16 13 :=
  #v[0x61, 0, 0xFF, 0xFF, 0xFF, 0xFF, 0xFF, 0xFF, 0xFF, 0xFF, 0xFF, 0xFF, 0xFF]

/-- In a cluster holding the long entry of `a`, its short entry `A~1` and the entry
of `B`, `B` is reported as starting at slot 0, the long entry of `a`. -/
theorem parse_short_after_named_short_at_B :
    ∃ tail, parse LongNameBuilder.new
      [(RawLongName.toRaw pieceA 1 true namedFile.checksum, ⟨0, 2, 0⟩),
        (RawName.fromShort namedFile, ⟨0, 2, 1⟩), (RawName.fromShort shortOnlyFile, ⟨0, 2, 2⟩)] =
      ⟨utf16ToString [pieceA], namedFile, ⟨0, 2, 0⟩, ⟨0, 2, 1⟩⟩ ::
        ⟨[], shortOnlyFile, ⟨0, 2, 0⟩, ⟨0, 2, 2⟩⟩ :: tail :=
  parse_short_after_named_short LongNameBuilder.new ⟨0, 2, 0⟩ ⟨0, 2, 1⟩ ⟨0, 2, 2⟩ [] []
    (RawLongName.get_toRaw (by decide) (by decide))
    (RawLongName.isLast_toRaw (by decide)) (RawLongName.orderNum_toRaw (by decide))
    (RawName.get_fromShort (by decide) (by decide)) (by simp)
    (RawName.get_fromShort (by decide) (by decide))

/-! ### Reading back a generated name -/

/-- The slots `entry_generate` writes for the pieces after the first, from the
piece at `k` on; `n` pieces in all. -/
theorem parse_longRun {n : Nat} {cs : UInt8} (small : n < 32) (rest : List (RawName × EntryPlace)) :
    ∀ (pieces : List (Vector UInt16 13)) (k : Nat) (b : LongNameBuilder) (ps : List EntryPlace),
      1 ≤ k → k + pieces.length = n → b.current = n - k + 1 → b.checksum = cs →
      ps.length = pieces.length →
      parse b ((((pieces.zipIdx k).map fun (piece, j) =>
          RawLongName.toRaw piece (n - j) (j == 0) cs).zip ps) ++ rest) =
        parse { b with long := b.long ++ pieces, current := 1 } rest := by
  intro pieces
  induction pieces with
  | nil =>
    intro k b ps _ count current _ _
    have done : b.current = 1 := by simp only [List.length_nil] at count; omega
    simp [← done]
  | cons piece pieces ih =>
    intro k b ps first count current checksum places
    obtain ⟨p, ps, rfl⟩ : ∃ p ps', ps = p :: ps' := List.exists_cons_of_length_eq_add_one places
    simp only [List.length_cons] at places count
    -- the entry of order `n - k`: not the first, it follows order `n - k + 1`
    have order : 0 < n - k ∧ n - k < 32 := by omega
    have notFirst : (k == 0) = false := by simp; omega
    have pushed : b.pushLong (RawLongName.toRaw piece (n - k) false cs).long p =
        ⟨b.long ++ [piece], n - k, b.startPlace, b.checksum⟩ := by
      rw [LongNameBuilder.pushLong_next (RawLongName.isLast_toRaw order.2)
        (by rw [RawLongName.orderNum_toRaw order.2, current]) (by rw [checksum]; simp),
        RawLongName.orderNum_toRaw order.2]
      simp
    rw [List.zipIdx_cons, List.map_cons, List.zip_cons_cons, List.cons_append,
      parse_cons_long (RawLongName.get_toRaw order.1 order.2), notFirst, pushed,
      ih (k + 1) ⟨b.long ++ [piece], n - k, b.startPlace, b.checksum⟩ ps (by omega) (by omega)
        (by simp only; omega) checksum (by omega)]
    simp

/-- The slots of a generated name, with the first slot at `p₀`, read as one
name: the pieces' name, started at `p₀`, ended at the last place. -/
theorem parse_entryGenerate {v : List (Vector UInt16 13)} {s : RawShortName}
    (nonempty : v ≠ []) (few : v.length < 32) (used : s.isFree = false)
    (notLong : s.attributes ≠ 0x0F) (b : LongNameBuilder) (p₀ : EntryPlace) (ps : List EntryPlace)
    (count : ps.length = v.length) :
    parse b ((entryGenerate v s).zip (p₀ :: ps)) =
      [⟨utf16ToString (b.long ++ v.reverse), s, p₀, (p₀ :: ps).getLast (by simp)⟩] := by
  obtain ⟨first, rest, split⟩ : ∃ first rest, v.reverse = first :: rest :=
    List.exists_cons_of_ne_nil (by simpa using nonempty)
  have lengths : rest.length + 1 = v.length := by
    have := congrArg List.length split
    simp only [List.length_reverse, List.length_cons] at this
    omega
  obtain ⟨ps', pLast, rfl⟩ : ∃ ps' pLast, ps = ps' ++ [pLast] :=
    ⟨ps.dropLast, ps.getLast (by rintro rfl; simp at count; omega),
      (List.dropLast_append_getLast _).symm⟩
  simp only [List.length_append, List.length_singleton] at count
  have order : 0 < v.length ∧ v.length < 32 := ⟨by omega, few⟩
  -- the first slot starts the name at `p₀`
  have started : b.pushLong (RawLongName.toRaw first v.length true s.checksum).long p₀ =
      ⟨b.long ++ [first], v.length, some p₀, s.checksum⟩ := by
    rw [LongNameBuilder.pushLong_last (RawLongName.isLast_toRaw order.2)
      (by rw [RawLongName.orderNum_toRaw order.2]; omega), RawLongName.orderNum_toRaw order.2]
    simp
  simp only [entryGenerate, split, List.zipIdx_cons, List.map_cons, Nat.sub_zero,
    beq_self_eq_true, Nat.zero_add, List.cons_append, List.zip_cons_cons]
  rw [parse_cons_long (RawLongName.get_toRaw order.1 order.2), started,
    List.zip_append (by simp; omega),
    parse_longRun few _ rest 1 _ ps' (Nat.le_refl 1) (by omega) (by simp only; omega) rfl
      (by omega),
    List.zip_cons_cons, List.zip_nil_left, parse_cons_short (RawName.get_fromShort used notLong)]
  simp [DirName.buildNew, LongNameBuilder.success, LongNameBuilder.decodeUtf16, ← split]

/-- The slot `k` of a generated name, for `k` below the number of pieces. -/
theorem entryGenerate_getElem? {v : List (Vector UInt16 13)} (s : RawShortName) {k : Nat}
    (within : k < v.length) :
    (entryGenerate v s)[k]? =
      some (RawLongName.toRaw v[v.length - 1 - k] (v.length - k) (k == 0) s.checksum) := by
  unfold entryGenerate
  rw [List.getElem?_append_left (by simpa using within)]
  simp [within]

/-- A name `name_check` passes, with at most 31 pieces, written by
`entry_generate` before any short entry that reads as one, in consecutive
slots, reads back from a builder with no pieces as one name: its own, started
at the first slot and ended at the short entry.  Each long slot carries the short
entry's checksum and the order of its piece, counting down, the first flagged
last. -/
theorem entryGenerate_round_trip {str name : List Char} (checked : nameCheck str = .ok name)
    (fits : (Utf16.encode name).length ≤ 31 * 13) {s : RawShortName} (used : s.isFree = false)
    (notLong : s.attributes ≠ 0x0F) :
    ∃ v, strToUtf16 name = .ok v ∧
      (∀ b : LongNameBuilder, b.long = [] → ∀ (p₀ : EntryPlace) (ps : List EntryPlace),
        ps.length = v.length →
        ∃ d, parse b ((entryGenerate v s).zip (p₀ :: ps)) = [d] ∧ d.takeName = name ∧
          d.short = s ∧ d.startPlace = p₀ ∧ d.endPlace = (p₀ :: ps).getLast (by simp)) ∧
      ∀ k < v.length, ∃ raw, (entryGenerate v s)[k]? = some raw ∧
        raw.get = some (.long raw.long) ∧ raw.long.checksum = s.checksum ∧
        raw.long.orderNum = v.length - k ∧ raw.long.isLast = (k == 0) := by
  obtain ⟨nonempty, nonzero⟩ := nameCheck_ok checked
  obtain ⟨v, cut, count, unitsEq⟩ := strToUtf16_spec nonempty fits
  have atLeastOne := List.length_pos_iff.mpr (Utf16.encode_ne_nil nonempty)
  have pieces : v ≠ [] := List.length_pos_iff.mp (by omega)
  have few : v.length < 32 := by omega
  refine ⟨v, cut, fun b fresh p₀ ps count' => ?_, fun k within => ?_⟩
  · -- the pieces read back, last first, are the name
    have joined : utf16ToString (b.long ++ v.reverse) = name := by
      rw [fresh, List.nil_append]
      exact utf16ToString_of_strToUtf16 nonzero unitsEq
    refine ⟨_, parse_entryGenerate pieces few used notLong b p₀ ps count', ?_, rfl, rfl, rfl⟩
    simp [DirName.takeName, joined, nonempty]
  · have order : 0 < v.length - k ∧ v.length - k < 32 := by omega
    refine ⟨_, entryGenerate_getElem? s within, RawLongName.get_toRaw order.1 order.2, by simp,
      RawLongName.orderNum_toRaw order.2, RawLongName.isLast_toRaw order.2⟩

/-- The name `a` with the short entry `A~1`, written to slots 0 and 1, reads back
as `a`. -/
theorem entryGenerate_round_trip_at_a :
    strToUtf16 ['a'] = .ok [pieceA] ∧ ∃ d, parse LongNameBuilder.new
      ((entryGenerate [pieceA] namedFile).zip [⟨0, 2, 0⟩, ⟨0, 2, 1⟩]) = [d] ∧
      d.takeName = ['a'] := by
  have checked : nameCheck ['a'] = .ok ['a'] := by decide
  obtain ⟨v, cut, reads, -⟩ := entryGenerate_round_trip checked (by decide) (s := namedFile)
    (by decide) (by decide)
  have known : strToUtf16 ['a'] = .ok [pieceA] := by decide
  obtain rfl : v = [pieceA] := by
    rw [known] at cut
    cases cut
    rfl
  obtain ⟨d, parsed, named, -⟩ := reads LongNameBuilder.new rfl ⟨0, 2, 0⟩ [⟨0, 2, 1⟩] rfl
  exact ⟨known, d, parsed, named⟩

end FtlOs
