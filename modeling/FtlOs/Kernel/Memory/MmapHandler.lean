import Mathlib
import FtlOs.Kernel.Config

/-!
# File mappings: the fast page and the fall-back page

An `MmapHandler` maps a file over the pages from `addr` on: page `a` holds the
file from `offset + (a - addr)` on, up to `fill_size` bytes of the mapping, and
zeros after.  Two paths fill such a page.  The fast paths (`page_fault_fast`,
`map_fast`, and the zero-copy share `try_rd_only_shared`) copy the file's cached
data with `read_at_fast` into a fresh frame.  When that data is not cached they
fail with `EAGAIN`, and the `FileAsyncHandler` they hand over (`a_page_fault`,
`a_map`) reads it with `read_at`.  The two compute the file position and the
zero fill in different ways, in `usize` arithmetic that wraps.

A page is the function from its byte indices to its bytes.  A fresh frame is
whatever the frame allocator hands out: it does not clear recycled frames.  The
file is its bytes; `read_at` and `read_at_fast` copy `min(len, |F| - pos)` bytes
and return that count.  The page-table side (a valid entry is left alone, the
frame is installed otherwise) and the zero-copy cache's bookkeeping change no
byte of a page and are left out.
-/

namespace FtlOs

/-- The bytes of a page, by index. -/
abbrev Page := Nat → UInt8

/-- `File::read_at` (and `read_at_fast`) of `len` bytes from file position `pos`
into `buf[dst..]`: the bytes the file has there, and their count. -/
def readAt (file : List UInt8) (pos dst len : Nat) (buf : Page) : Nat × Page :=
  let count := min len (file.length - pos)
  (count, fun i => if dst ≤ i ∧ i < dst + count then file.getD (pos + (i - dst)) 0 else buf i)

@[simp] theorem readAt_fst (file : List UInt8) (pos dst len : Nat) (buf : Page) :
    (readAt file pos dst len buf).1 = min len (file.length - pos) := rfl

/-- `fill_page_at`: zeros from byte `start` to the end of the page; the slice
`[start..]` panics past the page. -/
def fillPageAt (page : Page) (start : Usize) : Option Page :=
  if start.toNat ≤ pageSize then some fun i => if start.toNat ≤ i then 0 else page i else none

/-- The fields of `MmapHandlerSpec` that the page paths read. -/
structure MmapHandlerSpec where
  /-- `addr`: where the mapping starts. -/
  addr : Usize
  /-- `offset`: the file position mapped at `addr`. -/
  offset : Usize
  /-- `fill_size`: the bytes of the mapping that come from the file. -/
  fillSize : Usize

/-- The handler `sys_mmap` installs for a file mapped at `addr` from `offset`:
it maps all of the file, `fill_size = usize::MAX`. -/
def sysMmapSpec (addr offset : Usize) : MmapHandlerSpec := ⟨addr, offset, usizeMax⟩

@[simp] theorem sysMmapSpec_addr (addr offset : Usize) : (sysMmapSpec addr offset).addr = addr := rfl

@[simp] theorem sysMmapSpec_offset (addr offset : Usize) :
    (sysMmapSpec addr offset).offset = offset := rfl

@[simp] theorem sysMmapSpec_fillSize (addr offset : Usize) :
    (sysMmapSpec addr offset).fillSize.toNat = 2 ^ 64 - 1 := rfl

namespace MmapHandlerSpec

/-- `MmapHandler::get_offset`: the file position of page `a`. -/
def getOffset (s : MmapHandlerSpec) (a : Usize) : Usize := s.offset + a - s.addr

/-- `MmapHandler::page_all_zero`: the page lies past the file's part of the mapping. -/
def pageAllZero (s : MmapHandlerSpec) (a : Usize) : Bool := a - s.addr ≥ s.fillSize

/-- `MmapHandler::page_all_data`: the page lies inside the file's part of the mapping. -/
def pageAllData (s : MmapHandlerSpec) (a : Usize) : Bool :=
  a - s.addr + pageSize.toUInt64 ≤ s.fillSize

/-- `MmapHandler::need_fill_at`: where in the page the zeros start, if they do. -/
def needFillAt (s : MmapHandlerSpec) (a : Usize) : Option Usize :=
  let start := a - s.addr
  if start + pageSize.toUInt64 ≤ s.fillSize then none else some (s.fillSize - start)

/-- `MmapHandler::fast_load_data_no_fill`: the page read into `frame` from the
file, with no zeros filled in. -/
def fastLoadDataNoFill (s : MmapHandlerSpec) (file : List UInt8) (a : Usize) (frame : Page) :
    Page :=
  (readAt file (s.offset + (a - s.addr)).toNat 0 pageSize frame).2

/-- The page the loop of `MmapHandler::map_fast` installs at `a` in `frame`,
given the zero-copy cache's page for its file position, if it holds one. -/
def mapFastPage (s : MmapHandlerSpec) (file : List UInt8) (a : Usize) (frame : Page)
    (cached : Option Page) : Option Page :=
  if s.pageAllZero a then some fun _ => 0
  else
    let loaded := match cached with
      | some page => page
      | none => s.fastLoadDataNoFill file a frame
    match s.needFillAt a with
    | some start => fillPageAt loaded start
    | none => some loaded

/-- The page `MmapHandler::page_fault_fast` installs at `a` in `frame`: the
same as `map_fast`'s, always loaded from the file. -/
def pageFaultFast (s : MmapHandlerSpec) (file : List UInt8) (a : Usize) (frame : Page) :
    Option Page :=
  s.mapFastPage file a frame none

/-- `MmapHandler::try_rd_only_shared`: a page wholly inside the file's part of
the mapping is shared from the file's zero-copy cache `zc` (by file position),
loaded into `frame` first if the cache lacks it; `None` without a cache or
with an empty one. -/
def tryRdOnlyShared (s : MmapHandlerSpec) (file : List UInt8) (a : Usize) (frame : Page)
    (zc : Option (List (Usize × Page))) : Option Page :=
  if !s.pageAllData a then none
  else match zc with
    | none => none
    | some cache =>
        if cache.isEmpty then none
        else match cache.lookup (s.getOffset a) with
          | some page => some page
          | none => some (s.fastLoadDataNoFill file a frame)

/-- What a file mapping means: byte `i` of the page at `a` is the file's byte at
`offset + (a - addr) + i` while that is inside both the file's part of the
mapping and the file, and zero otherwise. -/
def mappedByte (s : MmapHandlerSpec) (file : List UInt8) (a : Usize) (i : Nat) : UInt8 :=
  let into := a.toNat - s.addr.toNat
  if into + i < s.fillSize.toNat ∧ s.offset.toNat + into + i < file.length then
    file.getD (s.offset.toNat + into + i) 0
  else 0

end MmapHandlerSpec

/-- The fields of `FileAsyncHandler` that the page paths read. -/
structure FileAsyncHandler where
  /-- `start`: the mapping's `addr`. -/
  start : Usize
  /-- `offset`. -/
  offset : Usize
  /-- `fill_size`. -/
  fillSize : Usize

/-- The handler `map_spec` and `page_fault_spec` hand over when the fast path
fails with `EAGAIN`. -/
def MmapHandlerSpec.asyncHandler (s : MmapHandlerSpec) : FileAsyncHandler :=
  ⟨s.addr, s.offset, s.fillSize⟩

/-- The page `FileAsyncHandler::a_page_fault` installs at `a` in `frame`; the
loop of `a_map` installs the same page at each address of its range. -/
def FileAsyncHandler.aPageFault (h : FileAsyncHandler) (file : List UInt8) (a : Usize)
    (frame : Page) : Option Page :=
  let filled : Option (Usize × Page) :=
    if a < h.start then
      -- a page below the mapping's start: the file lands at `start - a`
      let start := h.start - a
      if start.toNat ≤ pageSize then
        let (read, buf) := readAt file h.offset.toNat start.toNat (pageSize - start.toNat) frame
        some (start + min read.toUInt64 h.fillSize, buf)
      else none
    else
      let offset := h.offset + a - h.start
      if offset < h.offset + h.fillSize then
        let (read, buf) := readAt file offset.toNat 0 pageSize frame
        some (min read.toUInt64 (h.offset + h.fillSize - offset), buf)
      else some (0, frame)
  filled.bind fun (n, buf) => fillPageAt buf n

/-! ## Where the two paths meet the mapping -/

namespace MmapHandlerSpec

variable {s : MmapHandlerSpec} {file : List UInt8} {a : Usize} {frame : Page} {i : Nat}

theorem mappedByte_eq_zero (past : s.fillSize.toNat ≤ a.toNat - s.addr.toNat + i) :
    s.mappedByte file a i = 0 := by
  simp only [mappedByte]
  rw [if_neg (by omega)]

theorem mappedByte_eq_zero_of_eof
    (eof : file.length ≤ s.offset.toNat + (a.toNat - s.addr.toNat) + i) :
    s.mappedByte file a i = 0 := by
  simp only [mappedByte]
  rw [if_neg (by omega)]

theorem mappedByte_eq_getD (within : a.toNat - s.addr.toNat + i < s.fillSize.toNat)
    (inFile : s.offset.toNat + (a.toNat - s.addr.toNat) + i < file.length) :
    s.mappedByte file a i = file.getD (s.offset.toNat + (a.toNat - s.addr.toNat) + i) 0 := by
  simp only [mappedByte]
  rw [if_pos ⟨within, inFile⟩]

theorem pageAllZero_iff (above : s.addr ≤ a) :
    s.pageAllZero a = true ↔ s.fillSize.toNat ≤ a.toNat - s.addr.toNat := by
  simp [pageAllZero, UInt64.le_iff_toNat_le, UInt64.toNat_sub_of_le _ _ above]

/-- Without wrapping, the file position of page `a` is `offset + (a - addr)`. -/
theorem filePos_toNat (above : s.addr ≤ a)
    (inRange : s.offset.toNat + (a.toNat - s.addr.toNat) < 2 ^ 64) :
    (s.offset + (a - s.addr)).toNat = s.offset.toNat + (a.toNat - s.addr.toNat) := by
  rw [UInt64.toNat_add, UInt64.toNat_sub_of_le _ _ above]
  omega

/-- The page read from the file: the file's bytes from the page's position, as
many as the file has, and the frame's old bytes after them. -/
theorem fastLoadDataNoFill_apply (above : s.addr ≤ a)
    (inRange : s.offset.toNat + (a.toNat - s.addr.toNat) < 2 ^ 64) :
    s.fastLoadDataNoFill file a frame i =
      if i < pageSize ∧ s.offset.toNat + (a.toNat - s.addr.toNat) + i < file.length then
        file.getD (s.offset.toNat + (a.toNat - s.addr.toNat) + i) 0
      else frame i := by
  simp only [fastLoadDataNoFill, readAt, filePos_toNat above inRange, Nat.zero_le, true_and,
    Nat.zero_add, Nat.sub_zero]
  by_cases inside : i < pageSize ∧ s.offset.toNat + (a.toNat - s.addr.toNat) + i < file.length
  · rw [if_pos (by omega), if_pos inside]
  · rw [if_neg (by omega), if_neg inside]

/-- Where the fast paths start the zeros, without wrapping. -/
theorem needFillAt_eq (above : s.addr ≤ a)
    (inRange : a.toNat - s.addr.toNat + pageSize < 2 ^ 64) :
    s.needFillAt a = if a.toNat - s.addr.toNat + pageSize ≤ s.fillSize.toNat then none
      else some (s.fillSize - (a - s.addr)) := by
  have into := UInt64.toNat_sub_of_le _ _ above
  have sum : (a - s.addr + pageSize.toUInt64).toNat = a.toNat - s.addr.toNat + pageSize := by
    rw [UInt64.toNat_add, into, UInt64.toNat_ofNat_of_lt' (by decide)]
    omega
  simp only [needFillAt, UInt64.le_iff_toNat_le, sum]

/-- The fast path meets the mapping on every page whose part inside the file's
share of the mapping the file holds: a page that ends inside the file, or the
last page of a mapping that ends inside the file.  Past the file it keeps the
frame's old bytes. -/
theorem pageFaultFast_eq_mappedByte (above : s.addr ≤ a)
    (inRange : s.offset.toNat + (a.toNat - s.addr.toNat) + pageSize < 2 ^ 64)
    (covered : ∀ i < pageSize, a.toNat - s.addr.toNat + i < s.fillSize.toNat →
      s.offset.toNat + (a.toNat - s.addr.toNat) + i < file.length) :
    ∃ page, s.pageFaultFast file a frame = some page ∧
      ∀ i < pageSize, page i = s.mappedByte file a i := by
  unfold pageFaultFast mapFastPage
  by_cases zero : s.pageAllZero a
  · -- past the file's share of the mapping the page is zeros, as it should be
    have past := (pageAllZero_iff above).mp zero
    exact ⟨_, if_pos zero, fun i _ => (mappedByte_eq_zero (by omega)).symm⟩
  have before : a.toNat - s.addr.toNat < s.fillSize.toNat := by
    have := (pageAllZero_iff above).not.mp zero
    omega
  -- every byte the mapping takes from the file was read from it
  have loaded : ∀ i < pageSize, a.toNat - s.addr.toNat + i < s.fillSize.toNat →
      s.fastLoadDataNoFill file a frame i = s.mappedByte file a i := by
    intro i below within
    have inFile := covered i below within
    rw [fastLoadDataNoFill_apply above (by omega), if_pos ⟨below, inFile⟩,
      mappedByte_eq_getD within inFile]
  rw [if_neg zero, needFillAt_eq above (by omega)]
  by_cases whole : a.toNat - s.addr.toNat + pageSize ≤ s.fillSize.toNat
  · rw [if_pos whole]
    exact ⟨_, rfl, fun i below => loaded i below (by omega)⟩
  · -- the file's share ends inside the page: zeros from there on
    have fillAt : (s.fillSize - (a - s.addr)).toNat = s.fillSize.toNat - (a.toNat - s.addr.toNat) := by
      rw [UInt64.toNat_sub_of_le, UInt64.toNat_sub_of_le _ _ above]
      rw [UInt64.le_iff_toNat_le, UInt64.toNat_sub_of_le _ _ above]
      omega
    rw [if_neg whole]
    dsimp only
    rw [fillPageAt, fillAt, if_pos (by omega)]
    refine ⟨_, rfl, fun i below => ?_⟩
    by_cases zeroed : s.fillSize.toNat - (a.toNat - s.addr.toNat) ≤ i
    · rw [if_pos zeroed, mappedByte_eq_zero (by omega)]
    · rw [if_neg zeroed, loaded i below (by omega)]

/-- The fall-back path meets the mapping on every page, as long as
`offset + fill_size` does not wrap. -/
theorem aPageFault_eq_mappedByte (above : s.addr ≤ a)
    (noWrap : s.offset.toNat + s.fillSize.toNat < 2 ^ 64)
    (inRange : s.offset.toNat + (a.toNat - s.addr.toNat) < 2 ^ 64) :
    ∃ page, s.asyncHandler.aPageFault file a frame = some page ∧
      ∀ i < pageSize, page i = s.mappedByte file a i := by
  have into := UInt64.toNat_sub_of_le _ _ above
  have offsetNat : (s.offset + a - s.addr).toNat = s.offset.toNat + (a.toNat - s.addr.toNat) := by
    have := a.toNat_lt
    rw [UInt64.toNat_sub, UInt64.toNat_add]
    rw [UInt64.le_iff_toNat_le] at above
    omega
  have endNat : (s.offset + s.fillSize).toNat = s.offset.toNat + s.fillSize.toNat := by
    rw [UInt64.toNat_add]
    omega
  have notBelow : ¬a < s.addr := by
    rw [UInt64.lt_iff_toNat_lt]
    rw [UInt64.le_iff_toNat_le] at above
    omega
  unfold FileAsyncHandler.aPageFault asyncHandler
  dsimp only
  rw [if_neg notBelow]
  by_cases within : s.offset + a - s.addr < s.offset + s.fillSize
  · -- the page starts inside the file's share: the bytes read, cut at the share's end
    have before : a.toNat - s.addr.toNat < s.fillSize.toNat := by
      rw [UInt64.lt_iff_toNat_lt, offsetNat, endNat] at within
      omega
    have cutNat : (min (min pageSize (file.length - (s.offset + a - s.addr).toNat)).toUInt64
        (s.offset + s.fillSize - (s.offset + a - s.addr))).toNat =
        min (min pageSize (file.length - (s.offset.toNat + (a.toNat - s.addr.toNat))))
          (s.fillSize.toNat - (a.toNat - s.addr.toNat)) := by
      rw [UInt64.toNat_min, UInt64.toNat_ofNat_of_lt' ((min_le_left _ _).trans_lt (by decide)),
        offsetNat,
        UInt64.toNat_sub_of_le _ _ (UInt64.le_of_lt within), offsetNat, endNat]
      omega
    rw [if_pos within]
    simp only [readAt, Option.bind_some, fillPageAt, cutNat]
    rw [if_pos (by omega)]
    refine ⟨_, rfl, fun i below => ?_⟩
    by_cases read : i < min (min pageSize (file.length - (s.offset.toNat + (a.toNat - s.addr.toNat))))
        (s.fillSize.toNat - (a.toNat - s.addr.toNat))
    · rw [if_neg (by omega), if_pos (by omega), offsetNat, Nat.sub_zero,
        mappedByte_eq_getD (by omega) (by omega)]
    · rw [if_pos (not_lt.mp read)]
      by_cases eof : file.length ≤ s.offset.toNat + (a.toNat - s.addr.toNat) + i
      · rw [mappedByte_eq_zero_of_eof eof]
      · rw [mappedByte_eq_zero (by omega)]
  · -- the page lies past the file's share: all zeros
    have past : s.fillSize.toNat ≤ a.toNat - s.addr.toNat := by
      rw [UInt64.lt_iff_toNat_lt, offsetNat, endNat] at within
      omega
    rw [if_neg within]
    simp only [Option.bind_some, fillPageAt, UInt64.toNat_zero, Nat.zero_le, if_true]
    exact ⟨_, rfl, fun i _ => (mappedByte_eq_zero (by omega)).symm⟩

/-- Where `offset + fill_size` does not wrap and the file holds the mapping's
whole share of it, the fast page and the fall-back page agree byte for byte. -/
theorem fast_and_fallback_pages_agree (above : s.addr ≤ a)
    (noWrap : s.offset.toNat + s.fillSize.toNat < 2 ^ 64)
    (inRange : s.offset.toNat + (a.toNat - s.addr.toNat) + pageSize < 2 ^ 64)
    (inFile : s.offset.toNat + s.fillSize.toNat ≤ file.length) {frame' : Page} :
    ∃ fast slow, s.pageFaultFast file a frame = some fast ∧
      s.asyncHandler.aPageFault file a frame' = some slow ∧ ∀ i < pageSize, fast i = slow i := by
  have fastSpec : ∃ page, s.pageFaultFast file a frame = some page ∧
      ∀ i < pageSize, page i = s.mappedByte file a i :=
    pageFaultFast_eq_mappedByte above inRange fun i _ within => by omega
  have slowSpec : ∃ page, s.asyncHandler.aPageFault file a frame' = some page ∧
      ∀ i < pageSize, page i = s.mappedByte file a i :=
    aPageFault_eq_mappedByte above noWrap (by omega)
  obtain ⟨fast, fastEq, fastBytes⟩ := fastSpec
  obtain ⟨slow, slowEq, slowBytes⟩ := slowSpec
  exact ⟨fast, slow, fastEq, slowEq, fun i below => (fastBytes i below).trans (slowBytes i below).symm⟩

/-- A page shared from the zero-copy cache when the cache lacks it is read from
the file; where the file holds the whole page, it is the mapping's page. -/
theorem tryRdOnlyShared_eq_mappedByte {cache : List (Usize × Page)} (above : s.addr ≤ a)
    (inRange : s.offset.toNat + (a.toNat - s.addr.toNat) + pageSize < 2 ^ 64)
    (nonempty : cache ≠ []) (missing : cache.lookup (s.getOffset a) = none)
    (inFile : s.offset.toNat + (a.toNat - s.addr.toNat) + pageSize ≤ file.length)
    (data : a.toNat - s.addr.toNat + pageSize ≤ s.fillSize.toNat) :
    ∃ page, s.tryRdOnlyShared file a frame (some cache) = some page ∧
      ∀ i < pageSize, page i = s.mappedByte file a i := by
  have into := UInt64.toNat_sub_of_le _ _ above
  have allData : s.pageAllData a = true := by
    have sum : (a - s.addr + pageSize.toUInt64).toNat = a.toNat - s.addr.toNat + pageSize := by
      rw [UInt64.toNat_add, into, UInt64.toNat_ofNat_of_lt' (by decide)]
      omega
    simp [pageAllData, UInt64.le_iff_toNat_le, sum, data]
  refine ⟨s.fastLoadDataNoFill file a frame, ?_, fun i below => ?_⟩
  · simp [tryRdOnlyShared, allData, nonempty, missing]
  · rw [fastLoadDataNoFill_apply above (by omega), if_pos ⟨below, by omega⟩,
      mappedByte_eq_getD (by omega) (by omega)]

/-! ## `sys_mmap`'s mappings -/

/-- `sys_mmap`'s handler at a nonzero file offset: `offset + usize::MAX` wraps to
`offset - 1`, below the file position of every page, so the fall-back path maps
every page of the mapping as zeros. -/
theorem sysMmap_aPageFault_zeros {addr offset : Usize} (positive : 0 < offset.toNat)
    (above : addr ≤ a) (inRange : offset.toNat + (a.toNat - addr.toNat) < 2 ^ 64) :
    ∃ page, (sysMmapSpec addr offset).asyncHandler.aPageFault file a frame = some page ∧
      ∀ i, page i = 0 := by
  have notBelow : ¬a < addr := by
    rw [UInt64.lt_iff_toNat_lt]
    rw [UInt64.le_iff_toNat_le] at above
    omega
  -- the page's file position is not below the wrapped end `offset - 1`
  have wrapped : ¬offset + a - addr < offset + usizeMax := by
    have := a.toNat_lt
    rw [UInt64.lt_iff_toNat_lt, UInt64.toNat_sub, UInt64.toNat_add, UInt64.toNat_add]
    rw [UInt64.le_iff_toNat_le] at above
    simp only [usizeMax, UInt64.reduceToNat]
    omega
  unfold FileAsyncHandler.aPageFault asyncHandler sysMmapSpec
  dsimp only
  rw [if_neg notBelow, if_neg wrapped]
  simp [fillPageAt]

/-- `sys_mmap`'s handler: past the end of the file, the fast path leaves the
frame's old bytes in the page, since `fill_size = usize::MAX` never asks for
zeros. -/
theorem sysMmap_pageFaultFast_past_eof {addr offset : Usize} (above : addr ≤ a)
    (inRange : offset.toNat + (a.toNat - addr.toNat) + pageSize < 2 ^ 64) :
    ∃ page, (sysMmapSpec addr offset).pageFaultFast file a frame = some page ∧
      ∀ i < pageSize, file.length ≤ offset.toNat + (a.toNat - addr.toNat) + i → page i = frame i := by
  have page : pageSize = 4096 := rfl
  have notZero : ¬(sysMmapSpec addr offset).pageAllZero a := by
    rw [pageAllZero_iff above, sysMmapSpec_fillSize, sysMmapSpec_addr]
    omega
  have noFill : (sysMmapSpec addr offset).needFillAt a = none := by
    rw [needFillAt_eq above (by rw [sysMmapSpec_addr]; omega), sysMmapSpec_fillSize,
      sysMmapSpec_addr, if_pos (by omega)]
  unfold pageFaultFast mapFastPage
  rw [if_neg notZero, noFill]
  refine ⟨_, rfl, fun i below eof => ?_⟩
  dsimp only
  rw [fastLoadDataNoFill_apply above (by simp only [sysMmapSpec_addr, sysMmapSpec_offset]; omega),
    if_neg (by simp only [sysMmapSpec_addr, sysMmapSpec_offset]; omega)]

end MmapHandlerSpec

/-- `sys_mmap` of a file from offset 4096: the fast path maps the file's byte,
the fall-back path a zero.  `sys_mmap` of a 100-byte file from offset 0, into a
recycled frame: the fast path keeps the frame's old byte past the end of the
file, the fall-back path a zero. -/
theorem sysMmap_fast_and_fallback_pages_differ :
    ((sysMmapSpec 0x1000_0000 4096).pageFaultFast (List.replicate 4097 1) 0x1000_0000
      fun _ => 0).map (· 0) = some 1 ∧
    ((sysMmapSpec 0x1000_0000 4096).asyncHandler.aPageFault (List.replicate 4097 1) 0x1000_0000
      fun _ => 0).map (· 0) = some 0 ∧
    (sysMmapSpec 0x1000_0000 4096).mappedByte (List.replicate 4097 1) 0x1000_0000 0 = 1 ∧
    ((sysMmapSpec 0x1000_0000 0).pageFaultFast (List.replicate 100 1) 0x1000_0000
      fun _ => 0xAA).map (· 100) = some 0xAA ∧
    ((sysMmapSpec 0x1000_0000 0).asyncHandler.aPageFault (List.replicate 100 1) 0x1000_0000
      fun _ => 0xAA).map (· 100) = some 0 ∧
    (sysMmapSpec 0x1000_0000 0).mappedByte (List.replicate 100 1) 0x1000_0000 100 = 0 := by
  open MmapHandlerSpec in
  refine ⟨by decide +kernel, ?wrapped, by decide +kernel, ?stale, ?fallback, by decide +kernel⟩
  case wrapped =>
    -- from a nonzero offset the fall-back path maps zeros only
    obtain ⟨page, faulted, zeros⟩ : ∃ page, (sysMmapSpec 0x1000_0000 4096).asyncHandler.aPageFault
        (List.replicate 4097 1) 0x1000_0000 (fun _ => 0) = some page ∧ ∀ i, page i = 0 :=
      sysMmap_aPageFault_zeros (by decide) (by decide) (by decide)
    rw [faulted, Option.map_some, zeros]
  case stale =>
    -- past the end of the file the fast path keeps the frame's byte
    obtain ⟨page, faulted, kept⟩ : ∃ page, (sysMmapSpec 0x1000_0000 0).pageFaultFast
        (List.replicate 100 1) 0x1000_0000 (fun _ => 0xAA) = some page ∧
        ∀ i < pageSize, (List.replicate 100 1).length ≤ (0 : Usize).toNat +
          ((0x1000_0000 : Usize).toNat - (0x1000_0000 : Usize).toNat) + i → page i = 0xAA :=
      sysMmap_pageFaultFast_past_eof (by decide) (by decide)
    rw [faulted, Option.map_some, kept 100 (by decide) (by simp)]
  case fallback =>
    -- the fall-back path maps what the mapping holds there: a zero
    obtain ⟨page, faulted, bytes⟩ : ∃ page, (sysMmapSpec 0x1000_0000 0).asyncHandler.aPageFault
        (List.replicate 100 1) 0x1000_0000 (fun _ => 0xAA) = some page ∧
        ∀ i < pageSize, page i = (sysMmapSpec 0x1000_0000 0).mappedByte (List.replicate 100 1)
          0x1000_0000 i :=
      aPageFault_eq_mappedByte (by decide) (by decide) (by decide)
    rw [faulted, Option.map_some, bytes 100 (by decide),
      mappedByte_eq_zero_of_eof (by simp)]

end FtlOs
