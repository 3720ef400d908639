import FtlOs.Kernel.Memory.PushArgs.Defs
import FtlOs.Library.Bitflags

/-!
# Where `push_args` puts things

As addresses, when the stack has room for all of it (`footprint`), the places `layout` computes
lie right below one another: the environment strings below the top `usize`, the argument strings
below them, the platform string at most `15` bytes lower, and the auxiliary vector, the `envp`
array, the `argv` array and `argc` each right below the next (`Places`, `layout_places`).  No
`usize` operation of `layout` wraps then.

So the reserve of `push_args_size` pages is enough: with `sp_top` on a page boundary, at most
`39` entries in the auxiliary vector and the reserve below `sp_top`, both debug asserts of
`push_args` hold (`pushArgs_asserts`).
-/

namespace FtlOs

namespace UserSpace

/-- The bytes of strings, each with its zero byte. -/
def strBytes (strs : List (List UInt8)) : Nat := (strs.map fun s => s.length + 1).sum

/-- The bytes `push_args` may take below the top of the stack: the top `usize`, the strings,
the platform string with the most its 16-alignment can skip, the auxiliary vector, the two
pointer arrays and `argc`. -/
def footprint (args envp : List (List UInt8)) (auxv : List AuxHeader) : Nat :=
  8 + strBytes envp + strBytes args + (platform.length + 1) + 15 + (auxv.length + 1) * 16 +
    (envp.length + 1) * 8 + (args.length + 1) * 8 + 8

/-- The bytes `push_args_size` counts, computed on `Nat`. -/
def pushArgsBytes (args envp : List (List UInt8)) : Nat :=
  8 + (args.length + 1) * 8 + (envp.length + 1) * 8 + AuxHeader.reverse + 16 * 2 +
    (platform.length + 1) + 16 + pageSize + strBytes args + strBytes envp

/-- `push_args_size`, computed on `Nat`. -/
def pushArgsSizeNat (args envp : List (List UInt8)) : Nat :=
  (pushArgsBytes args envp + pageSize - 1) / pageSize

@[simp] theorem strBytes_nil : strBytes [] = 0 := rfl

@[simp] theorem strBytes_cons (s : List UInt8) (rest : List (List UInt8)) :
    strBytes (s :: rest) = s.length + 1 + strBytes rest := by
  simp [strBytes]

/-! ## The arithmetic on `usize` -/

section Words

/-- The sum of `write_strings_skip`, as a number. -/
theorem foldl_toNat (strs : List (List UInt8)) (acc : Usize) :
    (strs.foldl (fun a s => a + UInt64.ofNat s.length + 1) acc).toNat =
      (acc.toNat + strBytes strs) % 2 ^ 64 := by
  induction strs generalizing acc with
  | nil => simp [Nat.mod_eq_of_lt acc.toNat_lt]
  | cons s rest ih =>
    rw [List.foldl_cons, ih, UInt64.toNat_add, UInt64.toNat_add, UInt64.toNat_ofNat',
      strBytes_cons]
    simp only [UInt64.reduceToNat]
    omega

/-- The `xsum` of `push_args_size` is the sum of `write_strings_skip`. -/
theorem xsum_eq (strs : List (List UInt8)) :
    strs.foldl (fun x v => x + (UInt64.ofNat v.length + 1)) (0 : Usize) =
      strs.foldl (fun a s => a + UInt64.ofNat s.length + 1) 0 := by
  simp only [UInt64.add_assoc]

theorem usizeAlign_toNat (sp : Usize) : (usizeAlign sp).toNat = sp.toNat / 8 * 8 := by
  rw [usizeAlign, UInt64.toNat_and, show ((0 : Usize) - sizeOfUsize).toNat = 2 ^ 64 - 2 ^ 3 by
    decide]
  exact Bitflags.and_two_pow_sub_two_pow (by omega) sp.toNat_lt

theorem align16_toNat (sp : Usize) : (align16 sp).toNat = sp.toNat / 16 * 16 := by
  rw [align16, UInt64.toNat_and, show ((0 : Usize) - 16).toNat = 2 ^ 64 - 2 ^ 4 by decide]
  exact Bitflags.and_two_pow_sub_two_pow (by omega) sp.toNat_lt

theorem pageFloor_toNat (a : Usize) : (pageFloor a).toNat = a.toNat / pageSize * pageSize := by
  rw [pageFloor, UInt64.toNat_and, show (~~~(UInt64.ofNat pageSize - 1)).toNat = 2 ^ 64 - 2 ^ 12
    by decide]
  exact Bitflags.and_two_pow_sub_two_pow (by omega) a.toNat_lt

/-- Rounding up to a page starts with `a + PAGE_SIZE - 1`, which does not wrap when its value
fits, even when `a + PAGE_SIZE` alone does. -/
theorem addPage_sub_one_toNat {a : Usize} (small : a.toNat + pageSize - 1 < 2 ^ 64) :
    (a + UInt64.ofNat pageSize - 1).toNat = a.toNat + pageSize - 1 := by
  rw [UInt64.toNat_sub, UInt64.toNat_add, UInt64.toNat_ofNat']
  simp only [pageSize, UInt64.reduceToNat] at small ⊢
  omega

theorem pageCeil_toNat {a : Usize} (small : a.toNat + pageSize - 1 < 2 ^ 64) :
    (pageCeil a).toNat = (a.toNat + pageSize - 1) / pageSize * pageSize := by
  rw [pageCeil, UInt64.toNat_and, addPage_sub_one_toNat small,
    show (~~~(UInt64.ofNat pageSize - 1)).toNat = 2 ^ 64 - 2 ^ 12 by decide]
  exact Bitflags.and_two_pow_sub_two_pow (by omega) small

/-- A subtraction that does not wrap, as numbers. -/
theorem sub_toNat {a b : Usize} {n : Nat} (value : b.toNat = n) (room : n ≤ a.toNat) :
    (a - b).toNat = a.toNat - n := by
  rw [UInt64.toNat_sub_of_le _ _ (UInt64.le_iff_toNat_le.mpr (value ▸ room)), value]

/-- An addition that does not wrap, as numbers. -/
theorem add_toNat {a b : Usize} {m n : Nat} (left : a.toNat = m) (right : b.toNat = n)
    (small : m + n < 2 ^ 64) : (a + b).toNat = m + n := by
  rw [UInt64.toNat_add, left, right, Nat.mod_eq_of_lt small]

/-- The length of an array with its null entry, as a number. -/
theorem succ_toNat {k : Nat} (small : k + 1 < 2 ^ 64) : (UInt64.ofNat k + 1).toNat = k + 1 := by
  rw [UInt64.toNat_add, UInt64.toNat_ofNat']
  simp only [UInt64.reduceToNat]
  omega

/-- The bytes of an array with its null entry, as a number. -/
theorem succ_mul_toNat {k c : Nat} {w : Usize} (value : w.toNat = c) (positive : 0 < c)
    (small : (k + 1) * c < 2 ^ 64) : ((UInt64.ofNat k + 1) * w).toNat = (k + 1) * c := by
  rw [UInt64.toNat_mul, succ_toNat (Nat.lt_of_le_of_lt (Nat.le_mul_of_pos_right _ positive) small),
    value]
  exact Nat.mod_eq_of_lt small

/-- The sum of `write_strings_skip` from `0`, when it does not wrap. -/
theorem foldl_zero_toNat {l : List (List UInt8)} (small : strBytes l < 2 ^ 64) :
    (l.foldl (fun a s => a + UInt64.ofNat s.length + 1) 0).toNat = strBytes l := by
  rw [foldl_toNat, UInt64.toNat_zero, Nat.zero_add, Nat.mod_eq_of_lt small]

end Words

/-! ## The places -/

/-- Where the places of a layout are, as addresses below `top`, the top of the stack rounded
down to a `usize`: each part right below the next. -/
structure Places (l : Layout) (top : Nat) (args envp : List (List UInt8))
    (auxv : List AuxHeader) : Prop where
  envp_top : l.envpPtr.toNat + strBytes envp + 8 = top
  args_envp : l.argsPtr.toNat + strBytes args = l.envpPtr.toNat
  plat_args : l.platPtr.toNat + (platform.length + 1) ≤ l.argsPtr.toNat
  args_plat : l.argsPtr.toNat ≤ l.platPtr.toNat + (platform.length + 1) + 15
  auxv_plat : l.auxvPtr.toNat + (auxv.length + 1) * 16 = l.platPtr.toNat
  envp_auxv : l.rEnvp.toNat + (envp.length + 1) * 8 = l.auxvPtr.toNat
  argv_envp : l.rArgv.toNat + (args.length + 1) * 8 = l.rEnvp.toNat
  argc_argv : l.argcPtr.toNat + 8 = l.rArgv.toNat
  envpLen : l.envpLen.toNat = envp.length + 1
  argsLen : l.argsLen.toNat = args.length + 1

variable {spTop : Usize} {args envp : List (List UInt8)} {auxv : List AuxHeader}

/-- When the stack has room, `layout` puts each part right below the next, and nothing wraps. -/
theorem layout_places (fits : footprint args envp auxv ≤ spTop.toNat / 8 * 8) :
    Places (layout spTop args envp auxv) (spTop.toNat / 8 * 8) args envp auxv := by
  unfold footprint at fits
  have platformLength : platform.length = 8 := rfl
  have top := spTop.toNat_lt
  dsimp only [layout, writeStringsSkip, writeStrSkip, writeAuxvSkip]
  -- the places one after another, going down as `layout` computes them
  have belowTop : (usizeAlign spTop - sizeOfUsize).toNat = spTop.toNat / 8 * 8 - 8 := by
    rw [sub_toNat (a := usizeAlign spTop) (b := sizeOfUsize) (n := 8) rfl
      (by rw [usizeAlign_toNat]; omega), usizeAlign_toNat]
  generalize usizeAlign spTop - sizeOfUsize = below at belowTop
  have envpBelow := sub_toNat (a := below) (foldl_zero_toNat (l := envp) (by omega)) (by omega)
  generalize below - envp.foldl (fun a s => a + UInt64.ofNat s.length + 1) 0 = envpPtr at envpBelow
  have argsBelow := sub_toNat (a := envpPtr) (foldl_zero_toNat (l := args) (by omega)) (by omega)
  generalize envpPtr - args.foldl (fun a s => a + UInt64.ofNat s.length + 1) 0 = argsPtr
    at argsBelow
  have skipped : (argsPtr - 0 % UInt64.ofNat pageSize - (UInt64.ofNat platform.length + 1)).toNat =
      argsPtr.toNat - (platform.length + 1) := by
    have noRand : (argsPtr - 0 % UInt64.ofNat pageSize).toNat = argsPtr.toNat :=
      sub_toNat (a := argsPtr) (b := 0 % UInt64.ofNat pageSize) (n := 0) (by decide) (by omega)
    rw [sub_toNat (a := argsPtr - 0 % UInt64.ofNat pageSize)
      (succ_toNat (k := platform.length) (by omega)) (by omega), noRand]
  generalize argsPtr - 0 % UInt64.ofNat pageSize - (UInt64.ofNat platform.length + 1) = skip
    at skipped
  have platAligned := align16_toNat skip
  generalize align16 skip = platPtr at platAligned
  have auxvBelow : (platPtr - (UInt64.ofNat auxv.length + 1) * 2 * sizeOfUsize).toNat =
      platPtr.toNat - (auxv.length + 1) * 16 := by
    rw [UInt64.mul_assoc]
    exact sub_toNat (succ_mul_toNat (k := auxv.length) (c := 16) rfl (by omega) (by omega))
      (by omega)
  generalize platPtr - (UInt64.ofNat auxv.length + 1) * 2 * sizeOfUsize = auxvPtr at auxvBelow
  have envpArray := sub_toNat (a := auxvPtr)
    (succ_mul_toNat (k := envp.length) (c := 8) (w := sizeOfUsize) rfl (by omega) (by omega))
    (by omega)
  generalize auxvPtr - (UInt64.ofNat envp.length + 1) * sizeOfUsize = rEnvp at envpArray
  have argvArray := sub_toNat (a := rEnvp)
    (succ_mul_toNat (k := args.length) (c := 8) (w := sizeOfUsize) rfl (by omega) (by omega))
    (by omega)
  generalize rEnvp - (UInt64.ofNat args.length + 1) * sizeOfUsize = rArgv at argvArray
  have argcBelow := sub_toNat (a := rArgv) (n := 8) (b := sizeOfUsize) rfl (by omega)
  refine ⟨?_, ?_, ?_, ?_, ?_, ?_, ?_, ?_, succ_toNat (by omega), succ_toNat (by omega)⟩ <;>
    dsimp only <;> omega

/-! ## The reserve of `push_args_size` -/

/-- `push_args_size` does not wrap when its bytes do not. -/
theorem pushArgsSize_toNat (small : pushArgsBytes args envp + pageSize - 1 < 2 ^ 64) :
    (pushArgsSize args envp).toNat = pushArgsSizeNat args envp := by
  unfold pushArgsSizeNat pushArgsBytes at *
  have platformLength : platform.length = 8 := rfl
  have page : pageSize = 4096 := rfl
  have auxReverse : AuxHeader.reverse = 640 := rfl
  simp only [pushArgsSize, xsum_eq]
  -- the sum term by term, as `push_args_size` adds it up
  have argv := succ_mul_toNat (k := args.length) (c := 8) (w := sizeOfUsize) rfl (by omega)
    (by omega)
  have envpArray := succ_mul_toNat (k := envp.length) (c := 8) (w := sizeOfUsize) rfl
    (by omega) (by omega)
  have s0 : ((0 : Usize) + 8).toNat = 0 + 8 := rfl
  generalize (0 : Usize) + 8 = sum at s0 ⊢
  have s1 := add_toNat s0 argv (by omega)
  generalize sum + (UInt64.ofNat args.length + 1) * sizeOfUsize = sum at s1 ⊢
  have s2 := add_toNat s1 envpArray (by omega)
  generalize sum + (UInt64.ofNat envp.length + 1) * sizeOfUsize = sum at s2 ⊢
  have s3 := add_toNat (b := UInt64.ofNat AuxHeader.reverse) (n := 640) s2 rfl (by omega)
  generalize sum + UInt64.ofNat AuxHeader.reverse = sum at s3 ⊢
  have s4 := add_toNat (b := 16 * 2) (n := 32) s3 rfl (by omega)
  generalize sum + 16 * 2 = sum at s4 ⊢
  have s5 := add_toNat s4 (succ_toNat (k := platform.length) (by omega)) (by omega)
  generalize sum + (UInt64.ofNat platform.length + 1) = sum at s5 ⊢
  have s6 := add_toNat (b := 16) (n := 16) s5 rfl (by omega)
  generalize sum + 16 = sum at s6 ⊢
  have s7 := add_toNat (b := UInt64.ofNat pageSize) (n := 4096) s6 rfl (by omega)
  generalize sum + UInt64.ofNat pageSize = sum at s7 ⊢
  have argsSmall : strBytes args < 2 ^ 64 := by omega
  have envpSmall : strBytes envp < 2 ^ 64 := by omega
  have s8 := add_toNat s7 (foldl_zero_toNat argsSmall) (by omega)
  generalize sum + args.foldl (fun a s => a + UInt64.ofNat s.length + 1) 0 = sum at s8 ⊢
  have s9 := add_toNat s8 (foldl_zero_toNat envpSmall) (by omega)
  generalize sum + envp.foldl (fun a s => a + UInt64.ofNat s.length + 1) 0 = sum at s9 ⊢
  rw [UInt64.toNat_div, addPage_sub_one_toNat (by omega), s9]
  simp only [page, auxReverse, platformLength]
  rfl

/-- With `sp_top` on a page boundary, at most `39` entries in the auxiliary vector, and the
pages of `push_args_size` below `sp_top`, both debug asserts of `push_args` hold. -/
theorem pushArgs_asserts (mem : ByteMemory.Memory) (aligned : spTop.toNat % pageSize = 0)
    (fewAux : auxv.length + 1 ≤ 40)
    (reserved : pushArgsSizeNat args envp * pageSize ≤ spTop.toNat) :
    asserts spTop (pushArgsSize args envp) (pushArgs mem spTop args envp auxv).2.1 = true := by
  have platformLength : platform.length = 8 := rfl
  have page : pageSize = 4096 := rfl
  have auxReverse : AuxHeader.reverse = 640 := rfl
  have top := spTop.toNat_lt
  -- what `push_args` takes is within the reserve, which is within the stack
  have cover : footprint args envp auxv ≤ pushArgsSizeNat args envp * pageSize := by
    unfold footprint pushArgsSizeNat pushArgsBytes
    simp only [page, auxReverse, platformLength]
    omega
  have bytes : pushArgsBytes args envp + pageSize - 1 < 2 ^ 64 := by
    unfold pushArgsSizeNat at reserved
    rw [page] at reserved ⊢
    omega
  rw [page] at aligned
  have within : footprint args envp auxv ≤ spTop.toNat / 8 * 8 := by omega
  have reach : (pushArgsSize args envp * UInt64.ofNat pageSize).toNat =
      pushArgsSizeNat args envp * pageSize := by
    rw [UInt64.toNat_mul, pushArgsSize_toNat bytes,
      show (UInt64.ofNat pageSize).toNat = pageSize from rfl, Nat.mod_eq_of_lt (by omega)]
  rw [show (pushArgs mem spTop args envp auxv).2.1 = (layout spTop args envp auxv).argcPtr from rfl,
    asserts, Bool.and_eq_true, decide_eq_true_eq, decide_eq_true_eq, UInt64.le_iff_toNat_le,
    UInt64.le_iff_toNat_le, pageFloor_toNat, sub_toNat reach reserved]
  -- the new `sp` is at most the footprint below the top of the stack
  obtain ⟨envpTop, argsEnvp, platArgs, argsPlat, auxvPlat, envpAuxv, argvEnvp, argcArgv, -,
    -⟩ := layout_places within
  generalize layout spTop args envp auxv = l at *
  have below : l.argcPtr.toNat < spTop.toNat := by omega
  have above : spTop.toNat ≤ l.argcPtr.toNat + footprint args envp auxv := by
    unfold footprint
    omega
  clear within envpTop argsEnvp platArgs argsPlat auxvPlat envpAuxv argvEnvp argcArgv reach bytes
  rw [pageCeil_toNat (by omega)]
  rw [page] at reserved cover ⊢
  constructor
  · -- rounded up, `sp` stays below `sp_top`, which is on a page boundary
    clear above cover reserved
    omega
  · -- rounded down, `sp` stays above the reserve, which ends on a page boundary
    omega

/-- `sh -c ls` with the environment `H=1` and the auxiliary entries `AT_PAGESZ` and
`AT_RANDOM`. -/
theorem pushArgs_asserts_three_args :
    (0x10000 : Usize).toNat % pageSize = 0 ∧
      ([⟨6, 4096⟩, ⟨25, 0xfff0⟩] : List AuxHeader).length + 1 ≤ 40 ∧
      pushArgsSizeNat [[115, 104], [45, 99], [108, 115]] [[72, 61, 49]] * pageSize ≤
        (0x10000 : Usize).toNat ∧
      asserts 0x10000 (pushArgsSize [[115, 104], [45, 99], [108, 115]] [[72, 61, 49]])
        (pushArgs (fun _ => 0) 0x10000 [[115, 104], [45, 99], [108, 115]] [[72, 61, 49]]
          [⟨6, 4096⟩, ⟨25, 0xfff0⟩]).2.1 = true :=
  ⟨by decide, by decide, by decide, pushArgs_asserts _ (by decide) (by decide) (by decide)⟩

end UserSpace

end FtlOs
