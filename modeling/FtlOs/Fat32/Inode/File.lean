import FtlOs.Fat32.Inode.RawInode

/-!
# Reading and writing a file

`FileInode` reads and writes a file cluster by cluster: `cluster_spilt` turns a
byte offset into a cluster offset and an offset inside the cluster, and each
cluster is found by `get_nth_block`, or by `get_nth_block_alloc` where a write
runs past the chain.  `read_at` stops at the file size; `write_at` first writes
the bytes that fall inside the file, and then, holding the inode alone, the rest,
growing the chain and the size.

A write past the end of the file leaves the bytes between the old end and the
write as the clusters hold them: a new cluster's buffer is not cleared (the
callers' `init` does nothing) and neither is the tail of the old last cluster.

The access times and the write-back of the short entry are left out; so are the
`_fast` variants.  Byte offsets are `usize`s, and the two sums that can wrap do so.
-/

namespace FtlOs

namespace U64

/-- `usize` addition in a release build. -/
def add (a b : Nat) : Nat := (a + b) % 2 ^ 64

/-- `usize` subtraction in a release build, of operands below `2 ^ 64`. -/
def sub (a b : Nat) : Nat := (a + 2 ^ 64 - b) % 2 ^ 64

end U64

namespace Volume

/-- `RawBPB::cluster_spilt`: the cluster offset of a byte offset, and the offset
inside that cluster. -/
def clusterSpilt (v : Volume) (offset : Nat) : Nat × Nat :=
  (offset >>> v.clusterBytesLog2, offset &&& ((1 <<< v.clusterBytesLog2) - 1))

/-- The closure `read_at` passes `access_ro`: the bytes of the cluster from `off`
that fit in `room` bytes of the buffer. -/
def readBlock (v : Volume) (cid off room : Nat) : List UInt8 :=
  ((v.data cid).drop off).take (min room ((v.data cid).length - off))

/-- `write_block` with the closure every write passes it: copy what fits of `src`
into the cluster at `off`; returns how much. -/
def writeBlock (v : Volume) (cid off : Nat) (src : List UInt8) : Nat × Volume :=
  let s := v.data cid
  let n := min src.length (s.length - off)
  (n, { v with data := Function.update v.data cid (s.take off ++ src.take n ++ s.drop (off + n)) })

end Volume

namespace FileInode

/-- The loop of `read_at` at byte `cur` below `endOffset`, with `room` bytes of the
buffer left and `out` the bytes read so far; with fuel.  Returns the count read and
the bytes. -/
def readLoop (v : Volume) (offset endOffset : Nat) :
    Nat → Nat → Nat → List UInt8 → RawInode → Option ((Nat × List UInt8) × RawInode)
  | 0, _, _, _, _ => none
  | fuel + 1, cur, room, out, ino =>
      if cur < endOffset then
        let (nth, off) := v.clusterSpilt cur
        match ino.getNthBlock v.fat nth with
        | none => none
        -- the chain ends before the file does
        | some (.error _, ino) => some ((cur - offset, out), ino)
        | some (.ok cid, ino) =>
            let bytes := v.readBlock cid off room
            readLoop v offset endOffset fuel (cur + bytes.length) (room - bytes.length)
              (out ++ bytes) ino
      else some ((cur - offset, out), ino)

/-- `FileInode::read_at` of `len` bytes at `offset`.  Each pass reads a byte at
least, so `len + 1` passes are enough fuel. -/
def readAt (ino : RawInode) (v : Volume) (offset len : Nat) :
    Option ((Nat × List UInt8) × RawInode) :=
  let bytes := ino.cache.fileBytes
  let endOffset := min bytes (U64.add offset len)
  -- `bytes - offset` wraps when the offset is past the end
  let bufferEnd := min len (U64.sub bytes offset)
  readLoop v offset endOffset (len + 1) offset bufferEnd [] ino

/-- The shared-lock loop of `write_at` at byte `cur` below `endOffset`, with `src`
the bytes left to write there; with fuel.  `stop` is the call's early return when
the chain ends before the file does, `cont` the byte the loop stopped at. -/
def writeLoop (offset endOffset : Nat) :
    Nat → Nat → List UInt8 → Volume → RawInode → Option (ControlFlow Nat Nat × Volume × RawInode)
  | 0, _, _, _, _ => none
  | fuel + 1, cur, src, v, ino =>
      if cur < endOffset then
        let (nth, off) := v.clusterSpilt cur
        match ino.getNthBlock v.fat nth with
        | none => none
        | some (.error _, ino) => some (.stop (cur - offset), v, ino)
        | some (.ok cid, ino) =>
            let (n, v) := v.writeBlock cid off src
            writeLoop offset endOffset fuel (cur + n) (src.drop n) v ino
      else some (.cont cur, v, ino)

/-- The loop of `write_at` and `write_append` that may grow the chain, at byte
`cur` with `src` left to write; with fuel.  Returns the byte it stopped at. -/
def appendLoop : Nat → Nat → List UInt8 → Volume → RawInode → Option (SysR Nat × Volume × RawInode)
  | 0, _, _, _, _ => none
  | fuel + 1, cur, src, v, ino =>
      if src.isEmpty then some (.ok cur, v, ino)
      else
        let (nth, off) := v.clusterSpilt cur
        -- `init` is `|_| ()`: a new cluster keeps what its buffer held
        match ino.getNthBlockAlloc v nth id with
        | none => none
        | some (.error e, v, ino) => some (.error e, v, ino)
        | some (.ok cid, v, ino) =>
            let (n, v) := v.writeBlock cid off src
            appendLoop fuel (cur + n) (src.drop n) v ino

/-- `FileInode::write_at` of `src` at `offset`, growing the file as needed. -/
def writeAt (ino : RawInode) (v : Volume) (offset : Nat) (src : List UInt8) :
    Option (SysR Nat × Volume × RawInode) := do
  let bytes := ino.cache.fileBytes
  let endOffset := min bytes (U64.add offset src.length)
  let inFile := src.take (min src.length (bytes - offset))
  match ← writeLoop offset endOffset (src.length + 1) offset inFile v ino with
  | (.stop r, v, ino) => return (.ok r, v, ino)
  | (.cont cur, v, ino) =>
      if cur = U64.add offset src.length then return (.ok src.length, v, ino)
      -- `&buffer[cur - offset..]`
      if src.length < cur - offset then none
      match ← appendLoop (src.length + 1) cur (src.drop (cur - offset)) v ino with
      | (.error e, v, ino) => return (.error e, v, ino)
      | (.ok cur, v, ino) =>
          return (.ok (cur - offset), v, { ino with cache := ino.cache.updateFileBytes cur })

/-- `FileInode::write_append` of `src` at the end of the file. -/
def writeAppend (ino : RawInode) (v : Volume) (src : List UInt8) :
    Option (SysR Nat × Volume × RawInode) := do
  let offset := ino.cache.fileBytes
  match ← appendLoop (src.length + 1) offset src v ino with
  | (.error e, v, ino) => return (.error e, v, ino)
  | (.ok cur, v, ino) =>
      return (.ok (cur - offset), v, { ino with cache := ino.cache.updateFileBytes cur })

/-- A volume with nothing allocated, clusters of 512 bytes of which 6, 7 and 8
are free, and fresh cluster buffers that hold `0xAA`s. -/
def blankVolume : Volume :=
  ⟨fun _ => CID.free, [6, 7, 8], fun _ => List.replicate 512 0, fun _ => List.replicate 512 0xAA, 9⟩

/-- An empty file, as it is opened. -/
def emptyFile : RawInode := ⟨⟨[], CID.free, (0, CID.free), some 0, 0⟩, none⟩

/-- Appending 513 bytes to an empty file reports 513 written, but reading them back
gives 512 bytes, the first being the 513th written: the second cluster was never
allocated and the last byte overwrote the first.  And a write past the end leaves
the gap as the fresh buffer held it. -/
theorem file_read_after_write_diverges :
    InodeCacheInner.new CID.free 0 = some emptyFile.cache ∧
    (writeAppend emptyFile blankVolume (List.replicate 512 1 ++ [2])).map Prod.fst =
      some (.ok 513) ∧
    ((writeAppend emptyFile blankVolume (List.replicate 512 1 ++ [2])).bind fun r =>
      (readAt r.2.2 r.2.1 0 513).map Prod.fst) = some (512, 2 :: List.replicate 511 1) ∧
    ((writeAppend emptyFile blankVolume (List.replicate 10 1)).bind fun r =>
      (writeAt r.2.2 r.2.1 20 [7]).bind fun r =>
        (readAt r.2.2 r.2.1 10 10).map Prod.fst) = some (10, List.replicate 10 0xAA) := by
  refine ⟨rfl, ?_, ?_, ?_⟩ <;> decide +kernel

end FileInode

end FtlOs
