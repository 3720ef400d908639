import FtlOs.Fat32.Dir.Entry

/-!
# Creating, deleting and listing the names of a directory

`DirInode::create_file`, `delete_file`, `delete_entry` and `list` over the slots
of a directory's chain `C`.  `create_file` checks the name, refuses one the
directory holds with `EEXIST`, finds a short name with `short_detect` and writes
the entries with `create_entry_impl`.  `delete_file` finds the name with
`search_impl` and frees, with `delete_entry`, every slot from the start place the
search reports to the short entry.

The start place comes from `LongNameBuilder`, whose `clear` keeps the start of
the last long name read.  A name with no long entry, read after a long-named
one, is reported as starting at the other name's first long entry, and
`delete_entry` frees that name's entries with its own.  From a directory holding
only `..` and `.`, creating `a` and then `B` and deleting `B` leaves neither name
(`delete_short_name_frees_previous_name`).

The inode's own checks (`available`, `unused_release` of an open file) and the
release of a deleted file's clusters, which touch no slot, are left out.
-/

namespace FtlOs

/-! ## Short entries -/

namespace RawShortName

/-- `init_except_name`: the chain, the size and the attributes; the times are not
modelled. -/
def initExceptName (s : RawShortName) (cid : Nat) (fileBytes : UInt32) (attr : Nat) :
    RawShortName :=
  { s with
    reversed := 0
    clusterH16 := (cid >>> 16).toUInt16
    clusterL16 := cid.toUInt16
    attributes := attr.toUInt8
    fileBytes }

/-- `init_dot_dir`: the entry `.` (`dotN = 1`) or `..` (`dotN = 2`) of a directory,
pointing at the cluster `cid`. -/
def initDotDir (dotN cid : Nat) : RawShortName :=
  { zeroed with
    name := Vector.ofFn fun j => if j.1 < dotN then 0x2E else 0x20
    ext := Vector.replicate 3 0x20
    attributes := Attr.DIRECTORY.toUInt8
    clusterH16 := (cid >>> 16).toUInt16
    clusterL16 := cid.toUInt16 }

end RawShortName

/-! ## Creating a file -/

/-- `DirInode::short_detect`: `ShortFinder::new` of the name, which records every
short entry of the directory unless the name is its own short name.  `none` is
the panic of `ShortFinder::new`. -/
def shortDetect (C : List Nat) (data : Nat → List UInt8) (name : List Char) : Option ShortFinder := do
  let finder ← ShortFinder.new name
  if finder.shortOnly then return finder
  else
    return (rawEntryTryFold C data finder fun f raw _ =>
      match raw.get with
      | some (.short short) => (.cont (f.record short) : ControlFlow ShortFinder ShortFinder)
      | _ => .cont f).value

/-- The short entry `create_file` writes: the finder's name over a zeroed entry, then
`init_except_name` with no cluster, no bytes and the attributes of a file. -/
def fileShort (finder : ShortFinder) (readOnly hidden : Bool) : RawShortName :=
  (finder.apply .zeroed).initExceptName CID.free 0 (Attr.new false readOnly hidden)

/-- `DirInode::create_file` of an empty file: the chain and the volume after it.
`none` is a panic. -/
def createFile (C : List Nat) (v : Volume) (name : List Char) (readOnly hidden : Bool) :
    Option (SysR Unit × List Nat × Volume) := do
  match nameCheck name with
  | .error e => return (.error e, C, v)
  | .ok name =>
    if (searchImpl C v.data name).isSome then return (.error .EEXIST, C, v)
    let finder ← shortDetect C v.data name
    let (placed, C, v) ← createEntryImpl C v name (fileShort finder readOnly hidden)
    return (placed.map fun _ => (), C, v)

section Create

variable {C : List Nat} {v : Volume} {str name : List Char}

/-- A name the directory holds is refused with `EEXIST`, and nothing changes. -/
theorem createFile_of_present (checked : nameCheck str = .ok name)
    (present : (searchImpl C v.data name).isSome) (readOnly hidden : Bool) :
    createFile C v str readOnly hidden = some (.error .EEXIST, C, v) := by
  simp [createFile, checked, present]

/-- A name the directory does not hold is written by `create_entry_impl`, with the
short entry of the finder `short_detect` returns. -/
theorem createFile_of_absent (checked : nameCheck str = .ok name)
    (absent : searchImpl C v.data name = none) (readOnly hidden : Bool) :
    createFile C v str readOnly hidden = (shortDetect C v.data name).bind fun finder =>
      (createEntryImpl C v name (fileShort finder readOnly hidden)).bind fun created =>
        some (created.1.map fun _ => (), created.2) := by
  simp only [createFile, checked, absent, Option.isSome_none, Bool.false_eq_true, if_false]
  rfl

/-- `create_file` of a name the directory does not hold, whose run of free slots
is found whole: its entries are written from the run's first slot on. -/
theorem createFile_of_whole_run {finder : ShortFinder}
    {long : List (Vector UInt16 13)} {p : EntryPlace} (checked : nameCheck str = .ok name) (absent : searchImpl C v.data name = none)
    (detected : shortDetect C v.data name = some finder)
    (pieces : (strToJustShort name).map (fun justShort => (match justShort with
      | some _ => .ok []
      | none => strToUtf16 name : SysR (List (Vector UInt16 13)))) = some (.ok long))
    (run : rawEntryTryFold C v.data (0, none) (freeRunStep (long.length + 1)) =
      .stop (long.length + 1, some p)) (readOnly hidden : Bool) :
    createFile C v str readOnly hidden = some (.ok (), C,
      v.writeSlots p.cid (writeFrom · p.entryOff (entryGenerate long (fileShort finder readOnly hidden)))) := by
  obtain ⟨justShort, short, cut⟩ := Option.map_eq_some_iff.mp pieces
  rw [createFile_of_absent checked absent, detected, Option.bind_some,
    createEntryImpl_of_whole_run absent cut short run]
  rfl

end Create

/-! ## Deleting a file -/

/-- `x[a..b].iter_mut().for_each(set_free)`: the slots from `a` to `b` freed;
`none` is the panic of a slice reversed or past the end. -/
def freeRange (slots : List RawName) (a b : Nat) : Option (List RawName) :=
  if a ≤ b ∧ b ≤ slots.length then
    some (slots.mapIdx fun i raw => if a ≤ i ∧ i < b then raw.setFree else raw)
  else none

/-- `x[off].get_short().unwrap().cid()`, then `set_free`: the chain of the short
entry at `off` and the slots with it freed; `none` is a panic. -/
def freeShort (slots : List RawName) (off : Nat) : Option (Nat × List RawName) :=
  match slots[off]? with
  | none => none
  | some raw =>
    match raw.get with
    | some (.short s) => some (s.cid, slots.set off raw.setFree)
    | _ => none

/-- `delete_entry`: every slot from `start` to the short entry at `short` freed.
When the two are in one cluster that is the slots between them and the short
entry; else the first cluster from `start` on, and the second up to and with the
short entry.  The chain of the short entry is returned; `none` is a panic. -/
def deleteEntry (v : Volume) (start short : EntryPlace) : Option (Nat × Volume) := do
  let first := slotsOf (v.data start.cid)
  if start.clusterOff = short.clusterOff then
    let freed ← freeRange first start.entryOff short.entryOff
    let (cid, freed) ← freeShort freed short.entryOff
    return (cid, v.writeSlots start.cid fun _ => freed)
  else
    let freed ← freeRange first start.entryOff first.length
    let v := v.writeSlots start.cid fun _ => freed
    let freed ← freeRange (slotsOf (v.data short.cid)) 0 short.entryOff
    let (cid, freed) ← freeShort freed short.entryOff
    return (cid, v.writeSlots short.cid fun _ => freed)

/-- `DirInode::delete_file`: `name_check`, `ENOENT` for a name the directory does
not hold, `EISDIR` for a directory, else `delete_entry` of the places the search
reports.  The chain of the file is returned with the volume; `none` is a panic. -/
def deleteFile (C : List Nat) (v : Volume) (name : List Char) : Option (SysR Nat × Volume) :=
  match nameCheck name with
  | .error e => some (.error e, v)
  | .ok name =>
    match searchImpl C v.data name with
    | none => some (.error .ENOENT, v)
    | some (short, start, place) =>
      if short.isDir then some (.error .EISDIR, v)
      else (deleteEntry v start place).map fun (cid, v) => (.ok cid, v)

section Delete

variable {C : List Nat} {v : Volume} {str name : List Char}

/-- Within one cluster, `delete_entry` frees the slots from `start` up to and with
the short entry, and returns its chain. -/
theorem deleteEntry_single {start short : EntryPlace} {raw : RawName} {s : RawShortName}
    (same : start.clusterOff = short.clusterOff) (ordered : start.entryOff ≤ short.entryOff)
    (found : (slotsOf (v.data start.cid))[short.entryOff]? = some raw)
    (isShort : raw.get = some (.short s)) :
    deleteEntry v start short = some (s.cid, v.writeSlots start.cid fun slots =>
      slots.mapIdx fun i raw => if start.entryOff ≤ i ∧ i ≤ short.entryOff then raw.setFree else raw) := by
  simp only [deleteEntry, same, if_true]
  set slots := slotsOf (v.data start.cid)
  have within : short.entryOff < slots.length := (List.getElem?_eq_some_iff.mp found).1
  -- the long entries go first; the short entry is still in its slot
  have freed : freeRange slots start.entryOff short.entryOff = some (slots.mapIdx fun i raw =>
      if start.entryOff ≤ i ∧ i < short.entryOff then raw.setFree else raw) := by
    simp [freeRange, ordered, within.le]
  have taken : freeShort (slots.mapIdx fun i raw =>
      if start.entryOff ≤ i ∧ i < short.entryOff then raw.setFree else raw) short.entryOff =
      some (s.cid, (slots.mapIdx fun i raw =>
        if start.entryOff ≤ i ∧ i < short.entryOff then raw.setFree else raw).set short.entryOff
          raw.setFree) := by
    simp [freeShort, List.getElem?_mapIdx, found, isShort]
  have merged : (slots.mapIdx fun i raw =>
      if start.entryOff ≤ i ∧ i < short.entryOff then raw.setFree else raw).set short.entryOff
        raw.setFree = slots.mapIdx fun i raw =>
          if start.entryOff ≤ i ∧ i ≤ short.entryOff then raw.setFree else raw := by
    apply List.ext_getElem (by simp)
    intro i _ inside
    by_cases here : i = short.entryOff
    · have slot : slots[short.entryOff] = raw := (List.getElem?_eq_some_iff.mp found).2
      simp [here, slot, ordered]
    · have below : i < short.entryOff ↔ i ≤ short.entryOff := by omega
      simp [Ne.symm here, below]
  simp [freed, taken, merged]
  -- `write_block` hands the closure the cluster's own slots
  rfl

/-- `delete_file` of a file the search finds frees the slots from the start place
it reports. -/
theorem deleteFile_of_found {s : RawShortName} {start place : EntryPlace}
    (checked : nameCheck str = .ok name) (found : searchImpl C v.data name = some (s, start, place))
    (file : s.isDir = false) :
    deleteFile C v str = (deleteEntry v start place).map fun (cid, v) => (.ok cid, v) := by
  simp [deleteFile, checked, found, file]

end Delete

/-! ## Listing -/

/-- `DentryType`, as `list` tells the entries apart. -/
inductive DentryType where
  | DIR
  | REG
  deriving DecidableEq, Repr

/-- `DirInode::list`: the type and the name of every entry, in order. -/
def list (C : List Nat) (data : Nat → List UInt8) : List (DentryType × List Char) :=
  (nameTryFold (dirSlots C data) [] fun set d =>
    (.cont (set ++ [(if d.short.isDir then .DIR else .REG, d.takeName)]) :
      ControlFlow (List (DentryType × List Char)) (List (DentryType × List Char)))).value

/-! ## Slots of a one-cluster directory -/

theorem dirSlots_singleton (cid : Nat) (data : Nat → List UInt8) :
    dirSlots [cid] data = (slotsOf (data cid)).zipIdx.map fun (raw, off) => (raw, ⟨0, cid, off⟩) := by
  simp [dirSlots]

@[simp] theorem slotsOf_writeSlots (v : Volume) (cid : Nat) (f : List RawName → List RawName) :
    slotsOf ((v.writeSlots cid f).data cid) = f (slotsOf (v.data cid)) := by
  simp [Volume.writeSlots, slotsOf_bytesOf]

/-- A fold whose closure only appends collects the map of the list. -/
theorem tryFold_append {α γ : Type} (g : γ → α) (xs : List γ) (init : List α) :
    tryFold (fun set x => (.cont (set ++ [g x]) : ControlFlow (List α) (List α))) xs init =
      .cont (init ++ xs.map g) := by
  induction xs generalizing init with
  | nil => simp [tryFold]
  | cons x xs ih => simp [tryFold, ih]

/-- `list` gives every name `name_try_fold` reports, in order. -/
theorem list_eq (C : List Nat) (data : Nat → List UInt8) :
    list C data = (parse LongNameBuilder.new (dirSlots C data)).map fun d =>
      (if d.short.isDir then .DIR else .REG, d.takeName) := by
  simp [list, nameTryFold_eq, tryFold_append, ControlFlow.value]

/-! ## Deleting a short name after a long one -/

/-- The slots of a directory `create_dir` made in cluster 3 under cluster 2: `..`
and `.`, then fourteen free slots, in one cluster of 512 bytes. -/
def emptyDirSlots : List RawName :=
  [RawName.fromShort (RawShortName.initDotDir 2 2), RawName.fromShort (RawShortName.initDotDir 1 3)] ++
    List.replicate 14 (Vector.replicate 32 0)

/-- That directory: the chain `[3]`, no free cluster left. -/
def emptyDir : Volume :=
  ⟨Function.update (fun _ => CID.free) 3 CID.last, [],
    fun cid => if cid = 3 then bytesOf emptyDirSlots else [], fun _ => List.replicate 512 0, 9⟩

/-- The short entry `create_file` writes for `a` there: `A`, with a long entry. -/
def fileA : RawShortName :=
  { RawShortName.zeroed with
    name := Vector.ofFn fun i => if i.1 = 0 then 0x41 else 0x20
    ext := Vector.replicate 3 0x20 }

/-- The short entry `create_file` writes for `B`, its own short name. -/
def fileB : RawShortName :=
  { RawShortName.zeroed with
    name := Vector.ofFn fun i => if i.1 = 0 then 0x42 else 0x20
    ext := Vector.replicate 3 0x20 }

/-- From a directory holding only `..` and `.`, `create_file("a")` writes the long
entry of `a` and `A` to slots 2 and 3 and `create_file("B")` writes `B` to slot 4,
and `list` gives all four names.  Then `delete_file("B")` finds `B` with the start
place of `a`, slot 2, and frees slots 2 to 4: `a` is no longer listed. -/
theorem delete_short_name_frees_previous_name :
    ∃ v₁ v₂ v₃ : Volume,
      createFile [3] emptyDir ['a'] false false = some (.ok (), [3], v₁) ∧
      createFile [3] v₁ ['B'] false false = some (.ok (), [3], v₂) ∧
      (list [3] v₂.data).map Prod.snd = [['.', '.'], ['.'], ['a'], ['B']] ∧
      deleteFile [3] v₂ ['B'] = some (.ok CID.free, v₃) ∧
      (list [3] v₃.data).map Prod.snd = [['.', '.'], ['.']] := by
  have slots₀ : slotsOf (emptyDir.data 3) = emptyDirSlots := slotsOf_bytesOf emptyDirSlots
  -- `a`: a long entry and `A`, in the free run at slots 2 and 3
  obtain ⟨finderA, detectedA, shortA⟩ := Option.map_eq_some_iff.mp
    (show (shortDetect [3] emptyDir.data ['a']).map (fileShort · false false) = some fileA by
      simp only [shortDetect, rawEntryTryFold, dirSlots_singleton, slots₀]
      decide)
  have createdA := createFile_of_whole_run (v := emptyDir) (p := ⟨0, 3, 2⟩)
    (show nameCheck ['a'] = .ok ['a'] by decide)
    (by rw [searchImpl, dirSlots_singleton, slots₀]; decide) detectedA
    (show (strToJustShort ['a']).map (fun justShort => (match justShort with
      | some _ => .ok []
      | none => strToUtf16 ['a'] : SysR (List (Vector UInt16 13)))) = some (.ok [pieceA]) by decide)
    (by rw [rawEntryTryFold, dirSlots_singleton, slots₀]; decide) false false
  rw [shortA] at createdA
  set v₁ := emptyDir.writeSlots 3 (writeFrom · 2 (entryGenerate [pieceA] fileA))
  have slots₁ : slotsOf (v₁.data 3) = writeFrom emptyDirSlots 2 (entryGenerate [pieceA] fileA) := by
    simp [v₁, slots₀]
  -- `B`: its own short name, in the free slot 4
  obtain ⟨finderB, detectedB, shortB⟩ := Option.map_eq_some_iff.mp
    (show (shortDetect [3] v₁.data ['B']).map (fileShort · false false) = some fileB by
      simp only [shortDetect, rawEntryTryFold, dirSlots_singleton, slots₁]
      decide)
  have createdB := createFile_of_whole_run (v := v₁) (p := ⟨0, 3, 4⟩)
    (show nameCheck ['B'] = .ok ['B'] by decide)
    (by rw [searchImpl, dirSlots_singleton, slots₁]; decide) detectedB
    (show (strToJustShort ['B']).map (fun justShort => (match justShort with
      | some _ => .ok []
      | none => strToUtf16 ['B'] : SysR (List (Vector UInt16 13)))) = some (.ok []) by decide)
    (by rw [rawEntryTryFold, dirSlots_singleton, slots₁]; decide) false false
  rw [shortB] at createdB
  set v₂ := v₁.writeSlots 3 (writeFrom · 4 (entryGenerate [] fileB))
  have slots₂ : slotsOf (v₂.data 3) =
      writeFrom (writeFrom emptyDirSlots 2 (entryGenerate [pieceA] fileA)) 4 (entryGenerate [] fileB) := by
    simp [v₂, slots₁]
  -- the search reports `B` from slot 2, where the long entry of `a` stands
  have foundB : searchImpl [3] v₂.data ['B'] = some (fileB, ⟨0, 3, 2⟩, ⟨0, 3, 4⟩) := by
    rw [searchImpl, dirSlots_singleton, slots₂]
    decide
  have deleted := deleteFile_of_found (show nameCheck ['B'] = .ok ['B'] by decide) foundB
    (by decide)
  rw [deleteEntry_single (show (⟨0, 3, 2⟩ : EntryPlace).clusterOff = (⟨0, 3, 4⟩ : EntryPlace).clusterOff
      from rfl) (by decide)
    (show (slotsOf (v₂.data 3))[4]? = some (RawName.fromShort fileB) by rw [slots₂]; decide)
    (RawName.get_fromShort (by decide) (by decide))] at deleted
  refine ⟨v₁, v₂, _, createdA, createdB, ?_, deleted, ?_⟩
  · rw [list_eq, dirSlots_singleton, slots₂]
    decide
  · rw [list_eq, dirSlots_singleton, slotsOf_writeSlots, slots₂]
    decide

end FtlOs
