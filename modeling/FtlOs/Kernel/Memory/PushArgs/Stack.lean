import FtlOs.Kernel.Memory.PushArgs.Layout

/-!
# What `push_args` leaves on the stack

A program reads its arguments from the stack at its entry: `argc` at `sp`, then the `argv`
array, the `envp` array and the auxiliary vector, one right after the other; each entry of the
two arrays is the address of a string stored with a zero byte after it, and a null pointer ends
each array (`Entry`, `CStrings`).  When the stack has room for what `push_args` puts there, a
program finds exactly the arguments, the environment and the auxiliary vector it was given
(`pushArgs_entry`), the platform string is in its place, and no byte outside the part of the
stack between the new `sp` and the top `usize` changes (`pushArgs_frame`).

Each writer of `push_args` is described by the bytes it stores and by its frame, the addresses
it may change; the parts of the layout are apart (`Places`), so what one writer stored stays
stored under the writers after it.
-/

namespace FtlOs

namespace UserSpace

open ByteMemory

/-! ## What a program reads at its entry -/

/-- The array of pointers at `p` leads to `strs`: each entry is the address of a string stored
with a zero byte after it, and a null pointer ends the array. -/
def CStrings (mem : Memory) : Nat → List (List UInt8) → Prop
  | p, [] => readU64 mem p = 0
  | p, s :: rest => Stored mem (readU64 mem p).toNat (s ++ [0]) ∧ CStrings mem (p + 8) rest

/-- What a program finds at `sp` at its entry: `argc`, the `argv` array, the `envp` array and
the auxiliary vector with its zero entry, each right after the one before. -/
structure Entry (mem : Memory) (sp : Nat) (args envp : List (List UInt8))
    (auxv : List AuxHeader) : Prop where
  argcAt : (readU64 mem sp).toNat = args.length
  argvAt : CStrings mem (sp + 8) args
  envpAt : CStrings mem (sp + 8 + 8 * (args.length + 1)) envp
  auxvAt : Stored mem (sp + 8 + 8 * (args.length + 1) + 8 * (envp.length + 1))
    (auxv.flatMap AuxHeader.bytes ++ List.replicate 16 0)

/-- The array at `p` holds the addresses of the strings from `sp` up, each stored with a zero
byte after it, and then a null pointer: what `write_strings` writes. -/
def StringsAt (mem : Memory) : Nat → Nat → List (List UInt8) → Prop
  | _, p, [] => readU64 mem p = 0
  | sp, p, s :: rest =>
    (readU64 mem p).toNat = sp ∧ Stored mem sp (s ++ [0]) ∧
      StringsAt mem (sp + s.length + 1) (p + 8) rest

variable {mem mem' : Memory} {S : Set Nat}

theorem StringsAt.cStrings {sp p : Nat} {strs : List (List UInt8)}
    (at_ : StringsAt mem sp p strs) : CStrings mem p strs := by
  induction strs generalizing sp p with
  | nil => exact at_
  | cons s rest ih =>
    obtain ⟨pointer, stored, after⟩ := at_
    exact ⟨pointer ▸ stored, ih after⟩

/-- The strings and their array stay under a frame that misses both. -/
theorem StringsAt.frame {sp p : Nat} {strs : List (List UInt8)} (at_ : StringsAt mem sp p strs)
    (frame : Frame S mem mem') (slots : ∀ k < 8 * (strs.length + 1), p + k ∉ S)
    (bytes : ∀ k < strBytes strs, sp + k ∉ S) : StringsAt mem' sp p strs := by
  induction strs generalizing sp p with
  | nil =>
    rw [StringsAt, readU64_frame frame fun k below => slots k (by omega)]
    exact at_
  | cons s rest ih =>
    obtain ⟨pointer, stored, after⟩ := at_
    simp only [List.length_cons, strBytes_cons] at slots bytes
    refine ⟨?_, stored.frame frame fun k below => bytes k (by simp at below; omega), ?_⟩
    · rw [readU64_frame frame fun k below => slots k (by omega)]
      exact pointer
    · refine ih after (fun k below => ?_) (fun k below => ?_)
      · rw [Nat.add_assoc]
        exact slots (8 + k) (by omega)
      · rw [Nat.add_assoc, Nat.add_assoc]
        exact bytes (s.length + (1 + k)) (by omega)

/-! ## The writers -/

section Writers

theorem ofNat_toNat {n : Nat} (small : n < 2 ^ 64) : (UInt64.ofNat n).toNat = n :=
  UInt64.toNat_ofNat_of_lt' small

/-- An address plus a length that does not wrap, as numbers. -/
theorem add_ofNat_toNat {a : Usize} {n : Nat} (small : a.toNat + n < 2 ^ 64) :
    (a + UInt64.ofNat n).toNat = a.toNat + n :=
  add_toNat rfl (ofNat_toNat (by omega)) small

/-- The address of entry `n` of an array of `c`-byte entries, as a number. -/
theorem add_mul_toNat {a w : Usize} {n c : Nat} (value : w.toNat = c) (positive : 0 < c)
    (small : a.toNat + c * n < 2 ^ 64) : (a + UInt64.ofNat n * w).toNat = a.toNat + c * n := by
  have below : n < 2 ^ 64 := Nat.lt_of_le_of_lt (Nat.le_mul_of_pos_left n positive) (by omega)
  have entries : (UInt64.ofNat n * w).toNat = c * n := by
    rw [UInt64.toNat_mul, ofNat_toNat below, value, Nat.mul_comm, Nat.mod_eq_of_lt (by omega)]
  exact add_toNat rfl entries small

@[simp] theorem length_bytes (h : AuxHeader) : h.bytes.length = 16 := rfl

@[simp] theorem length_flatMap_bytes (auxv : List AuxHeader) :
    (auxv.flatMap AuxHeader.bytes).length = 16 * auxv.length := by
  simp [List.length_flatMap, Nat.mul_comm]

theorem writeStr_frame (mem : Memory) (sp : Usize) (s : List UInt8)
    (small : sp.toNat + s.length < 2 ^ 64) :
    Frame (Set.Ico sp.toNat (sp.toNat + s.length + 1)) mem (writeStr mem sp s) := by
  have string := frame_write mem sp.toNat s
  have zero := frame_write (write mem sp.toNat s) (sp.toNat + s.length) [0]
  rw [writeStr, add_ofNat_toNat small]
  refine (string.trans zero).mono (Set.union_subset ?_ ?_) <;>
    exact Set.Ico_subset_Ico (by simp) (by simp)

theorem writeAuxvLoop_frame (mem : Memory) (sp : Usize) (auxv : List AuxHeader)
    (small : sp.toNat + 16 * auxv.length < 2 ^ 64) :
    Frame (Set.Ico sp.toNat (sp.toNat + 16 * auxv.length)) mem (writeAuxvLoop mem sp auxv) := by
  induction auxv generalizing mem sp with
  | nil => exact frame_refl _ mem
  | cons h rest ih =>
    simp only [List.length_cons] at small
    have next : (sp + 16).toNat = sp.toNat + 16 := add_toNat rfl rfl (by omega)
    have entry := frame_write mem sp.toNat h.bytes
    have after := ih (write mem sp.toNat h.bytes) (sp + 16) (by omega)
    rw [next] at after
    refine (entry.trans after).mono (Set.union_subset ?_ ?_) <;>
      exact Set.Ico_subset_Ico (by omega) (by simp only [length_bytes, List.length_cons]; omega)

theorem writeAuxvLoop_stored (mem : Memory) (sp : Usize) (auxv : List AuxHeader)
    (small : sp.toNat + 16 * auxv.length < 2 ^ 64) :
    Stored (writeAuxvLoop mem sp auxv) sp.toNat (auxv.flatMap AuxHeader.bytes) := by
  induction auxv generalizing mem sp with
  | nil => exact stored_nil _ _
  | cons h rest ih =>
    simp only [List.length_cons] at small
    have next : (sp + 16).toNat = sp.toNat + 16 := add_toNat rfl rfl (by omega)
    have after := writeAuxvLoop_frame (write mem sp.toNat h.bytes) (sp + 16) rest (by omega)
    have later := ih (write mem sp.toNat h.bytes) (sp + 16) (by omega)
    rw [next] at after later
    rw [writeAuxvLoop, List.flatMap_cons, stored_append, length_bytes]
    exact ⟨(stored_write mem sp.toNat h.bytes).frame after (apart_Ico (by simp)), later⟩

theorem writeAuxv_frame (mem : Memory) (sp : Usize) (auxv : List AuxHeader)
    (small : sp.toNat + 16 * (auxv.length + 1) < 2 ^ 64) :
    Frame (Set.Ico sp.toNat (sp.toNat + 16 * (auxv.length + 1))) mem (writeAuxv mem sp auxv) := by
  have entries := writeAuxvLoop_frame mem sp auxv (by omega)
  have zero := frame_write (writeAuxvLoop mem sp auxv) (sp.toNat + 16 * auxv.length)
    (List.replicate 16 0)
  rw [List.length_replicate] at zero
  rw [writeAuxv, add_mul_toNat (c := 16) rfl (by omega) (by omega)]
  refine (entries.trans zero).mono (Set.union_subset ?_ ?_) <;>
    exact Set.Ico_subset_Ico (by omega) (by omega)

theorem writeAuxv_stored (mem : Memory) (sp : Usize) (auxv : List AuxHeader)
    (small : sp.toNat + 16 * (auxv.length + 1) < 2 ^ 64) :
    Stored (writeAuxv mem sp auxv) sp.toNat
      (auxv.flatMap AuxHeader.bytes ++ List.replicate 16 0) := by
  have zero := frame_write (writeAuxvLoop mem sp auxv) (sp.toNat + 16 * auxv.length)
    (List.replicate 16 0)
  rw [List.length_replicate] at zero
  rw [writeAuxv, add_mul_toNat (c := 16) rfl (by omega) (by omega), stored_append,
    length_flatMap_bytes]
  exact ⟨(writeAuxvLoop_stored mem sp auxv (by omega)).frame zero
    (apart_Ico (by rw [length_flatMap_bytes]; omega)), stored_write _ _ _⟩

/-- The loop of `write_strings` changes only the array and the strings. -/
theorem writeStringsLoop_frame (mem : Memory) (sp p : Usize) (strs : List (List UInt8))
    (small : sp.toNat + strBytes strs < 2 ^ 64) (slots : p.toNat + 8 * strs.length < 2 ^ 64) :
    Frame (Set.Ico p.toNat (p.toNat + 8 * strs.length) ∪
      Set.Ico sp.toNat (sp.toNat + strBytes strs)) mem (writeStringsLoop mem sp p strs) := by
  induction strs generalizing mem sp p with
  | nil => exact frame_refl _ mem
  | cons s rest ih =>
    simp only [List.length_cons, strBytes_cons] at small slots
    have string : (sp + UInt64.ofNat s.length).toNat = sp.toNat + s.length :=
      add_ofNat_toNat (by omega)
    have next : (sp + UInt64.ofNat s.length + 1).toNat = sp.toNat + s.length + 1 :=
      add_toNat string rfl (by omega)
    have slot : (p + sizeOfUsize).toNat = p.toNat + 8 := add_toNat rfl rfl (by omega)
    -- the three stores of one round, then the rounds after it
    have pointer := frame_writeU64 mem p.toNat sp
    have bytes := frame_write (writeU64 mem p.toNat sp) sp.toNat s
    have zero := frame_write (write (writeU64 mem p.toNat sp) sp.toNat s) (sp.toNat + s.length) [0]
    have after := ih (write (write (writeU64 mem p.toNat sp) sp.toNat s) (sp.toNat + s.length) [0])
      (sp + UInt64.ofNat s.length + 1) (p + sizeOfUsize) (by omega) (by omega)
    rw [next, slot] at after
    rw [List.length_singleton] at zero
    rw [writeStringsLoop, string]
    refine (((pointer.trans bytes).trans zero).trans after).mono ?_
    intro a inside
    simp only [Set.mem_union, Set.mem_Ico, List.length_cons, strBytes_cons] at inside ⊢
    omega

/-- The loop of `write_strings` lays out the strings and their array, above a null pointer
already in place. -/
theorem writeStringsLoop_stringsAt (mem : Memory) (sp p : Usize) (strs : List (List UInt8))
    (null : readU64 mem (p.toNat + 8 * strs.length) = 0)
    (apart : p.toNat + 8 * (strs.length + 1) ≤ sp.toNat)
    (small : sp.toNat + strBytes strs < 2 ^ 64) :
    StringsAt (writeStringsLoop mem sp p strs) sp.toNat p.toNat strs := by
  induction strs generalizing mem sp p with
  | nil => simpa [StringsAt, writeStringsLoop] using null
  | cons s rest ih =>
    simp only [List.length_cons, strBytes_cons] at null apart small
    have string : (sp + UInt64.ofNat s.length).toNat = sp.toNat + s.length :=
      add_ofNat_toNat (by omega)
    have next : (sp + UInt64.ofNat s.length + 1).toNat = sp.toNat + s.length + 1 :=
      add_toNat string rfl (by omega)
    have slot : (p + sizeOfUsize).toNat = p.toNat + 8 := add_toNat rfl rfl (by omega)
    have bytes := frame_write (writeU64 mem p.toNat sp) sp.toNat s
    have zero := frame_write (write (writeU64 mem p.toNat sp) sp.toNat s) (sp.toNat + s.length) [0]
    have round := ((frame_writeU64 mem p.toNat sp).trans bytes).trans zero
    have after := writeStringsLoop_frame
      (write (write (writeU64 mem p.toNat sp) sp.toNat s) (sp.toNat + s.length) [0])
      (sp + UInt64.ofNat s.length + 1) (p + sizeOfUsize) rest (by omega) (by omega)
    -- the null pointer outlives the round, so the rounds after it lay out the rest
    have later := ih (write (write (writeU64 mem p.toNat sp) sp.toNat s) (sp.toNat + s.length) [0])
      (sp + UInt64.ofNat s.length + 1) (p + sizeOfUsize) (by
        rw [slot, readU64_frame round fun k _ => by
          simp only [Set.mem_union, Set.mem_Ico, List.length_singleton]; omega]
        rw [← null]
        congr 1
        omega) (by omega) (by omega)
    rw [next, slot] at after later
    rw [writeStringsLoop, string]
    refine ⟨?_, ?_, later⟩
    · rw [readU64_frame after fun k _ => by simp only [Set.mem_union, Set.mem_Ico]; omega,
        readU64_frame (bytes.trans zero) fun k _ => by
          simp only [Set.mem_union, Set.mem_Ico, List.length_singleton]; omega,
        readU64_writeU64]
    · refine Stored.frame ?_ after fun k below => by
        simp only [List.length_append, List.length_singleton] at below
        simp only [Set.mem_union, Set.mem_Ico]
        omega
      rw [stored_append]
      exact ⟨(stored_write _ sp.toNat s).frame zero (apart_Ico (by omega)), stored_write _ _ [0]⟩

theorem writeStrings_frame (mem : Memory) (sp : Usize) (strs : List (List UInt8)) (ptrs : Usize)
    (small : sp.toNat + strBytes strs < 2 ^ 64) (slots : ptrs.toNat + 8 * (strs.length + 1) < 2 ^ 64) :
    Frame (Set.Ico ptrs.toNat (ptrs.toNat + 8 * (strs.length + 1)) ∪
      Set.Ico sp.toNat (sp.toNat + strBytes strs)) mem (writeStrings mem sp strs ptrs) := by
  have null := frame_writeU64 mem (ptrs.toNat + 8 * strs.length) 0
  have loop := writeStringsLoop_frame (writeU64 mem (ptrs.toNat + 8 * strs.length) 0) sp ptrs
    strs small (by omega)
  rw [writeStrings, add_mul_toNat (c := 8) rfl (by omega) (by omega)]
  refine (null.trans loop).mono ?_
  intro a inside
  simp only [Set.mem_union, Set.mem_Ico] at inside ⊢
  omega

/-- `write_strings` lays out the strings from `sp` up and their array at `ptrs`, when the array
lies below the strings. -/
theorem writeStrings_stringsAt (mem : Memory) (sp : Usize) (strs : List (List UInt8))
    (ptrs : Usize) (apart : ptrs.toNat + 8 * (strs.length + 1) ≤ sp.toNat)
    (small : sp.toNat + strBytes strs < 2 ^ 64) :
    StringsAt (writeStrings mem sp strs ptrs) sp.toNat ptrs.toNat strs := by
  rw [writeStrings, add_mul_toNat (c := 8) rfl (by omega) (by omega)]
  exact writeStringsLoop_stringsAt _ sp ptrs strs (readU64_writeU64 0) apart small

end Writers

/-! ## The stack `push_args` builds -/

variable {spTop : Usize} {args envp : List (List UInt8)} {auxv : List AuxHeader}

/-- `push_args` is its five writers, one after another, at the places of `layout`. -/
theorem pushArgs_eq (mem : Memory) :
    pushArgs mem spTop args envp auxv =
      let l := layout spTop args envp auxv
      (writeU64 (writeStrings (writeStrings (writeAuxv (writeStr mem l.platPtr platform) l.auxvPtr
        auxv) l.envpPtr envp l.rEnvp) l.argsPtr args l.rArgv) l.argcPtr.toNat (l.argsLen - 1),
        l.argcPtr, l.argsLen - 1, l.rArgv, l.rEnvp) := rfl

/-- `push_args` changes no byte outside the stack between the new `sp` and the top `usize`. -/
theorem pushArgs_frame (mem : Memory) (fits : footprint args envp auxv ≤ spTop.toNat / 8 * 8) :
    Frame (Set.Ico (pushArgs mem spTop args envp auxv).2.1.toNat (spTop.toNat / 8 * 8 - 8)) mem
      (pushArgs mem spTop args envp auxv).1 := by
  have platformLength : platform.length = 8 := rfl
  have top := spTop.toNat_lt
  obtain ⟨envpTop, argsEnvp, platArgs, argsPlat, auxvPlat, envpAuxv, argvEnvp, argcArgv, -, -⟩ :=
    layout_places fits
  rw [pushArgs_eq]
  dsimp only
  generalize layout spTop args envp auxv = l at *
  have plat := writeStr_frame mem l.platPtr platform (by omega)
  have aux := writeAuxv_frame (writeStr mem l.platPtr platform) l.auxvPtr auxv (by omega)
  have envpStrings := writeStrings_frame
    (writeAuxv (writeStr mem l.platPtr platform) l.auxvPtr auxv) l.envpPtr envp l.rEnvp
    (by omega) (by omega)
  have argsStrings := writeStrings_frame
    (writeStrings (writeAuxv (writeStr mem l.platPtr platform) l.auxvPtr auxv) l.envpPtr envp
      l.rEnvp) l.argsPtr args l.rArgv (by omega) (by omega)
  have argc := frame_writeU64
    (writeStrings (writeStrings (writeAuxv (writeStr mem l.platPtr platform) l.auxvPtr auxv)
      l.envpPtr envp l.rEnvp) l.argsPtr args l.rArgv) l.argcPtr.toNat (l.argsLen - 1)
  refine ((((plat.trans aux).trans envpStrings).trans argsStrings).trans argc).mono ?_
  -- each part lies between the new `sp` and the top `usize`
  intro a inside
  simp only [Set.mem_union, Set.mem_Ico] at inside ⊢
  omega

/-- `sh -c ls` with the environment `H=1` and the auxiliary entries `AT_PAGESZ` and
`AT_RANDOM`. -/
theorem pushArgs_frame_three_args :
    footprint [[115, 104], [45, 99], [108, 115]] [[72, 61, 49]] [⟨6, 4096⟩, ⟨25, 0x1ff0⟩] ≤
        (0x2000 : Usize).toNat / 8 * 8 ∧
      Frame (Set.Ico (pushArgs (fun _ => 0) 0x2000 [[115, 104], [45, 99], [108, 115]]
          [[72, 61, 49]] [⟨6, 4096⟩, ⟨25, 0x1ff0⟩]).2.1.toNat
        ((0x2000 : Usize).toNat / 8 * 8 - 8)) (fun _ => 0)
        (pushArgs (fun _ => 0) 0x2000 [[115, 104], [45, 99], [108, 115]] [[72, 61, 49]]
          [⟨6, 4096⟩, ⟨25, 0x1ff0⟩]).1 :=
  ⟨by decide, pushArgs_frame _ (by decide)⟩

/-- When the stack has room, a program finds at the `sp` that `push_args` returns its arguments,
its environment and its auxiliary vector, and `push_args` returns `argc` and the addresses of
the `argv` and `envp` arrays it finds there. -/
theorem pushArgs_entry (mem : Memory) (fits : footprint args envp auxv ≤ spTop.toNat / 8 * 8) :
    Entry (pushArgs mem spTop args envp auxv).1 (pushArgs mem spTop args envp auxv).2.1.toNat
      args envp auxv ∧
    (pushArgs mem spTop args envp auxv).2.2.1.toNat = args.length ∧
    (pushArgs mem spTop args envp auxv).2.2.2.1.toNat =
      (pushArgs mem spTop args envp auxv).2.1.toNat + 8 ∧
    (pushArgs mem spTop args envp auxv).2.2.2.2.toNat =
      (pushArgs mem spTop args envp auxv).2.1.toNat + 8 + 8 * (args.length + 1) := by
  have platformLength : platform.length = 8 := rfl
  have top := spTop.toNat_lt
  obtain ⟨envpTop, argsEnvp, platArgs, argsPlat, auxvPlat, envpAuxv, argvEnvp, argcArgv, -,
    argsLen⟩ := layout_places fits
  rw [pushArgs_eq]
  dsimp only
  generalize layout spTop args envp auxv = l at *
  have argc : (l.argsLen - 1).toNat = args.length := by
    rw [sub_toNat (n := 1) rfl (by omega), argsLen, Nat.add_sub_cancel]
  -- what each writer stores, and the frames of the writers after it
  have aux := writeAuxv_stored (writeStr mem l.platPtr platform) l.auxvPtr auxv (by omega)
  have envpAt := writeStrings_stringsAt
    (writeAuxv (writeStr mem l.platPtr platform) l.auxvPtr auxv) l.envpPtr envp l.rEnvp
    (by omega) (by omega)
  have envpStrings := writeStrings_frame
    (writeAuxv (writeStr mem l.platPtr platform) l.auxvPtr auxv) l.envpPtr envp l.rEnvp
    (by omega) (by omega)
  have argsAt := writeStrings_stringsAt
    (writeStrings (writeAuxv (writeStr mem l.platPtr platform) l.auxvPtr auxv) l.envpPtr envp
      l.rEnvp) l.argsPtr args l.rArgv (by omega) (by omega)
  have argsStrings := writeStrings_frame
    (writeStrings (writeAuxv (writeStr mem l.platPtr platform) l.auxvPtr auxv) l.envpPtr envp
      l.rEnvp) l.argsPtr args l.rArgv (by omega) (by omega)
  have argcStore := frame_writeU64
    (writeStrings (writeStrings (writeAuxv (writeStr mem l.platPtr platform) l.auxvPtr auxv)
      l.envpPtr envp l.rEnvp) l.argsPtr args l.rArgv) l.argcPtr.toNat (l.argsLen - 1)
  have auxvLength : (auxv.flatMap AuxHeader.bytes ++ List.replicate 16 0).length =
      16 * (auxv.length + 1) := by
    rw [List.length_append, length_flatMap_bytes, List.length_replicate, Nat.mul_succ]
  refine ⟨⟨?_, ?_, ?_, ?_⟩, argc, by omega, by omega⟩
  · rw [readU64_writeU64, argc]
  · rw [argcArgv]
    exact (argsAt.frame argcStore (apart_Ico (by omega)) (apart_Ico (by omega))).cStrings
  · rw [show l.argcPtr.toNat + 8 + 8 * (args.length + 1) = l.rEnvp.toNat by omega]
    refine (envpAt.frame (argsStrings.trans argcStore) (fun k _ => ?_) (fun k _ => ?_)).cStrings <;>
      · simp only [Set.mem_union, Set.mem_Ico]
        omega
  · rw [show l.argcPtr.toNat + 8 + 8 * (args.length + 1) + 8 * (envp.length + 1) =
      l.auxvPtr.toNat by omega]
    refine aux.frame ((envpStrings.trans argsStrings).trans argcStore) fun k below => ?_
    simp only [Set.mem_union, Set.mem_Ico]
    omega

theorem pushArgs_entry_one_arg :
    footprint [[97]] [[98, 99]] [] ≤ (0x2000 : Usize).toNat / 8 * 8 ∧
      Entry (pushArgs (fun _ => 0) 0x2000 [[97]] [[98, 99]] []).1
        (pushArgs (fun _ => 0) 0x2000 [[97]] [[98, 99]] []).2.1.toNat [[97]] [[98, 99]] [] ∧
      (pushArgs (fun _ => 0) 0x2000 [[97]] [[98, 99]] []).2.2.1.toNat = 1 ∧
      (pushArgs (fun _ => 0) 0x2000 [[97]] [[98, 99]] []).2.2.2.1.toNat =
        (pushArgs (fun _ => 0) 0x2000 [[97]] [[98, 99]] []).2.1.toNat + 8 ∧
      (pushArgs (fun _ => 0) 0x2000 [[97]] [[98, 99]] []).2.2.2.2.toNat =
        (pushArgs (fun _ => 0) 0x2000 [[97]] [[98, 99]] []).2.1.toNat + 8 + 8 * (1 + 1) :=
  ⟨by decide, pushArgs_entry _ (by decide)⟩

end UserSpace

end FtlOs
