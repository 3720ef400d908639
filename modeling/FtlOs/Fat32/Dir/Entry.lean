import FtlOs.Fat32.Dir.Fold

/-!
# Creating a directory entry

A directory is the chain `C` of its clusters, each cluster an array of slots.
`raw_entry_try_fold` visits every slot of every cluster in order with its place;
`get_nth_block` is taken to answer the chain's clusters in order and then its
length, as it does on an inode whose cache agrees with the chain.

`create_entry_impl` looks for a run of `need_len` free slots, one per long entry
and one for the short entry, by a fold that counts free slots across cluster
boundaries.  Its write phase writes only from the run's first slot to the end of
that slot's cluster, then, unless the run was found whole, into a newly appended
cluster.  A run found whole that crosses a cluster boundary is written only up to
the end of its first cluster: the entries past it, the short entry among them,
are written nowhere, and the place returned lies past the end of the cluster.
-/

namespace FtlOs

/-! ## Slots of a cluster -/

/-- The slots of a cluster's buffer, as `&[RawName]` sees it. -/
def slotsOf (bytes : List UInt8) : List RawName :=
  (List.range (bytes.length / 32)).map fun i => Vector.ofFn fun j => bytes.getD (32 * i + j.1) 0

/-- The bytes of a list of slots. -/
def bytesOf (slots : List RawName) : List UInt8 := slots.flatMap Vector.toList

/-- `a[off..].iter_mut().zip(src)` writing each pair: the slots from `off` on take
the entries of `src` as far as both go. -/
def writeFrom (a : List RawName) (off : Nat) (src : List RawName) : List RawName :=
  a.take off ++ src.take (a.length - off) ++ (a.drop off).drop src.length

/-- `write_block` of a cluster through its slots. -/
def Volume.writeSlots (v : Volume) (cid : Nat) (f : List RawName → List RawName) : Volume :=
  { v with data := Function.update v.data cid (bytesOf (f (slotsOf (v.data cid)))) }

/-- `RawName::cluster_init` on a fresh buffer. -/
def clusterInitBytes (bytes : List UInt8) : List UInt8 := bytesOf (RawName.clusterInit (slotsOf bytes))

/-- The slots of a directory with their places, cluster after cluster. -/
def dirSlots (C : List Nat) (data : Nat → List UInt8) : List (RawName × EntryPlace) :=
  C.zipIdx.flatMap fun (cid, clusterOff) =>
    (slotsOf (data cid)).zipIdx.map fun (raw, entryOff) => (raw, ⟨clusterOff, cid, entryOff⟩)

/-- `raw_entry_try_fold`. -/
def rawEntryTryFold {α β : Type} (C : List Nat) (data : Nat → List UInt8) (init : α)
    (f : α → RawName → EntryPlace → ControlFlow β α) : ControlFlow β α :=
  tryFold (fun a (slot : RawName × EntryPlace) => f a slot.1 slot.2) (dirSlots C data) init

/-! ## Searching -/

/-- `u8::eq_ignore_ascii_case`. -/
def eqIgnoreAsciiCase (a b : UInt8) : Bool := toAsciiLowercase a == toAsciiLowercase b

/-- `DirName::is_same`: the long name, or the short one when there is none, equal
to `str` up to ASCII case, byte by byte. -/
def DirName.isSame (d : DirName) (str : List Char) : Bool :=
  let name := if !d.long.isEmpty then utf8 d.long else d.short.getName
  name.length == (utf8 str).length && (name.zip (utf8 str)).all fun (a, b) => eqIgnoreAsciiCase a b

/-- `search_impl`: the short entry of the name, with the place of its first
entry and of the short entry. -/
def searchImpl (C : List Nat) (data : Nat → List UInt8) (name : List Char) :
    Option (RawShortName × EntryPlace × EntryPlace) :=
  match nameTryFold (dirSlots C data) () fun () d =>
      if d.isSame name then .stop (d.short, d.startPlace, d.endPlace) else .cont () with
  | .cont () => none
  | .stop r => some r

/-! ## Creating -/

/-- `append_block` on the directory's inode, its cache agreeing with the chain
`C`: the next free cluster linked after the last and filled by `cluster_init`.
The offset returned is the old last cluster's, the one the cache records the new
cluster at. -/
def appendCluster (C : List Nat) (v : Volume) : SysR ((Nat × Nat) × List Nat × Volume) :=
  let allocated := match C.getLast? with
    | none => v.allocBlock
    | some last => v.allocBlockAfter last
  match allocated with
  | .error e => .error e
  | .ok (cid, v) => .ok ((C.length - 1, cid), C ++ [cid], v.getBlockInit cid clusterInitBytes)

/-- The closure of `create_entry_impl`'s fold: the length of the run of free slots
ending here and its first place; a used slot resets it. -/
def freeRunStep (needLen : Nat) (acc : Nat × Option EntryPlace) (b : RawName) (c : EntryPlace) :
    ControlFlow (Nat × Option EntryPlace) (Nat × Option EntryPlace) :=
  let (cnt, place) := acc
  if !b.isFree then .cont (0, some c)
  else
    let nxt := (cnt + 1, if cnt = 0 then some c else place)
    if nxt.1 = needLen then .stop nxt else .cont nxt

/-- The write into a newly appended cluster, from its slot 0. -/
def writeNewCluster (C : List Nat) (v : Volume) (entries : List RawName) :
    SysR ((Nat × Nat × Nat) × List Nat × Volume) :=
  match appendCluster C v with
  | .error e => .error e
  | .ok ((clusterOff, cid), C, v) =>
    -- `entry_off` counts the entries written
    let written := min entries.length (slotsOf (v.data cid)).length
    .ok ((clusterOff, cid, written), C, v.writeSlots cid (writeFrom · 0 entries))

/-- `create_entry_impl`: the place of the short entry written, with the chain and
the volume after it; `none` is a panic. -/
def createEntryImpl (C : List Nat) (v : Volume) (name : List Char) (short : RawShortName) :
    Option (SysR EntryPlace × List Nat × Volume) := do
  if (searchImpl C v.data name).isSome then return (.error .EEXIST, C, v)
  let justShort ← strToJustShort name
  let long : SysR (List (Vector UInt16 13)) := match justShort with
    | some _ => .ok []
    | none => strToUtf16 name
  match long with
  | .error e => return (.error e, C, v)
  | .ok long =>
    let needLen := long.length + 1
    let (n, p) := (rawEntryTryFold C v.data (0, none) (freeRunStep needLen)).value
    let iter := entryGenerate long short
    let fresh : SysR EntryPlace × List Nat × Volume :=
      match writeNewCluster C v iter with
      | .error e => (.error e, C, v)
      | .ok ((clusterOff, cid, _), C, v) => (.ok ⟨clusterOff, cid, needLen - 1⟩, C, v)
    match p with
    | none => return fresh
    | some p =>
      if n = 0 then return fresh
      else
        -- only the slots of `p`'s cluster from `p` on
        let consumed := (slotsOf (v.data p.cid)).length - p.entryOff
        let v := v.writeSlots p.cid (writeFrom · p.entryOff iter)
        if n = needLen then return (.ok ⟨p.clusterOff, p.cid, p.entryOff + needLen - 1⟩, C, v)
        else
          match writeNewCluster C v (iter.drop consumed) with
          | .error e => return (.error e, C, v)
          | .ok ((clusterOff, cid, entryOff), C, v) =>
            -- `entry_off - 1` in `usize`
            return (.ok ⟨clusterOff, cid, (entryOff + 2 ^ 64 - 1) % 2 ^ 64⟩, C, v)

/-! ## Slots and bytes -/

@[simp] theorem length_bytesOf (slots : List RawName) : (bytesOf slots).length = 32 * slots.length := by
  induction slots with
  | nil => rfl
  | cons x xs ih =>
    simp only [bytesOf, List.flatMap_cons, List.length_append, Vector.length_toList] at ih ⊢
    rw [ih, List.length_cons]
    omega

theorem getElem?_bytesOf (slots : List RawName) {i j : Nat} (hi : i < slots.length) (hj : j < 32) :
    (bytesOf slots)[32 * i + j]? = some slots[i][j] := by
  -- slot `i` starts after the `32 * i` bytes of the slots before it
  induction slots generalizing i with
  | nil => simp at hi
  | cons x xs ih =>
    cases i with
    | zero =>
      simp only [bytesOf, List.flatMap_cons, Nat.mul_zero, Nat.zero_add, List.getElem_cons_zero]
      rw [List.getElem?_append_left (by simpa using hj)]
      simp [hj]
    | succ i =>
      simp only [bytesOf, List.flatMap_cons, List.getElem_cons_succ]
      rw [List.getElem?_append_right (by simp; omega)]
      simp only [Vector.length_toList]
      rw [show 32 * (i + 1) + j - 32 = 32 * i + j by omega]
      exact ih (by simpa using hi)

/-- Reading slots back from their bytes. -/
theorem slotsOf_bytesOf (slots : List RawName) : slotsOf (bytesOf slots) = slots := by
  apply List.ext_getElem
  · simp [slotsOf]
  · intro i hi hi'
    simp only [slotsOf, List.getElem_map, List.getElem_range]
    refine Vector.ext fun j hj => ?_
    simp [List.getD_eq_getElem?_getD, getElem?_bytesOf slots hi' hj]

/-! ## A run found whole -/

/-- A run of `need_len` free slots found whole is written from its first slot on,
in that slot's cluster, and the place returned is the run's last slot. -/
theorem createEntryImpl_of_whole_run {C : List Nat} {v : Volume} {name : List Char}
    {short : RawShortName} {justShort : Option (Vector UInt8 8 × Vector UInt8 3)}
    {long : List (Vector UInt16 13)} {p : EntryPlace}
    (absent : searchImpl C v.data name = none)
    (cut : (match justShort with
      | some _ => .ok []
      | none => strToUtf16 name : SysR (List (Vector UInt16 13))) = .ok long)
    (checked : strToJustShort name = some justShort)
    (run : rawEntryTryFold C v.data (0, none) (freeRunStep (long.length + 1)) =
      .stop (long.length + 1, some p)) :
    createEntryImpl C v name short = some (.ok ⟨p.clusterOff, p.cid, p.entryOff + long.length⟩, C,
      v.writeSlots p.cid (writeFrom · p.entryOff (entryGenerate long short))) := by
  unfold createEntryImpl
  simp only [absent, Option.isSome_none, Bool.false_eq_true, if_false, checked,
    Option.bind_eq_bind, Option.bind_some]
  rw [cut]
  -- the run was found whole: `n = need_len`, and the write stops at the cluster's end
  simp only [run, ControlFlow.value, Nat.add_one_ne_zero, if_false, if_true, Option.pure_def]
  rw [show p.entryOff + (long.length + 1) - 1 = p.entryOff + long.length by omega]

/-! ## A run that crosses a cluster boundary -/

/-- A name with long entries whose run of free slots, found whole, starts in one
cluster and ends in the next: only the slots of the first cluster from the run's
first slot on are written, and the place returned lies past that cluster's last
slot. -/
theorem createEntryImpl_crossing_run {C : List Nat} {v : Volume} {name : List Char}
    {short : RawShortName} {long : List (Vector UInt16 13)} {p : EntryPlace}
    (absent : searchImpl C v.data name = none) (named : strToJustShort name = some none)
    (cut : strToUtf16 name = .ok long)
    (run : rawEntryTryFold C v.data (0, none) (freeRunStep (long.length + 1)) =
      .stop (long.length + 1, some p))
    (crosses : (slotsOf (v.data p.cid)).length < p.entryOff + long.length + 1) :
    createEntryImpl C v name short = some (.ok ⟨p.clusterOff, p.cid, p.entryOff + long.length⟩, C,
      v.writeSlots p.cid (writeFrom · p.entryOff (entryGenerate long short))) ∧
    (slotsOf (v.data p.cid)).length ≤ p.entryOff + long.length := by
  -- the write stops at the end of `p`'s cluster, before the run's last slot
  exact ⟨@createEntryImpl_of_whole_run _ _ _ _ none _ _ absent cut named run, by omega⟩

/-- A directory of two 512-byte clusters, 2 and 3: fifteen entries of `B` and a
free slot in cluster 2, cluster 3 free. -/
def crossingDir : Volume :=
  ⟨Function.update (Function.update (fun _ => CID.free) 2 3) 3 CID.last, [4, 5],
    fun cid => if cid = 2 then bytesOf (List.replicate 15 (RawName.fromShort shortOnlyFile) ++
      [Vector.replicate 32 0]) else bytesOf (List.replicate 16 (Vector.replicate 32 0)),
    fun _ => List.replicate 512 0, 9⟩

theorem crossingDir_slots (cid : Nat) :
    slotsOf (crossingDir.data cid) = if cid = 2 then
      List.replicate 15 (RawName.fromShort shortOnlyFile) ++ [Vector.replicate 32 0]
      else List.replicate 16 (Vector.replicate 32 0) := by
  unfold crossingDir
  split <;> simp [slotsOf_bytesOf, *]

/-- Creating `a` there: its two entries go to slot 15 of cluster 2 and slot 0 of
cluster 3, but only the long entry is written, and the place returned is slot 16
of cluster 2, which has 16 slots. -/
theorem createEntryImpl_crossing_run_at_a :
    createEntryImpl [2, 3] crossingDir ['a'] namedFile = some (.ok ⟨0, 2, 16⟩, [2, 3],
      crossingDir.writeSlots 2 (writeFrom · 15 (entryGenerate [pieceA] namedFile))) ∧
    (slotsOf (crossingDir.data 2)).length ≤ 16 := by
  have absent : searchImpl [2, 3] crossingDir.data ['a'] = none := by
    simp only [searchImpl, dirSlots, crossingDir_slots]
    decide
  have run : rawEntryTryFold [2, 3] crossingDir.data (0, none) (freeRunStep ([pieceA].length + 1)) =
      .stop ([pieceA].length + 1, some ⟨0, 2, 15⟩) := by
    simp only [rawEntryTryFold, dirSlots, crossingDir_slots]
    decide
  have crosses : (slotsOf (crossingDir.data 2)).length < 15 + [pieceA].length + 1 := by
    simp only [crossingDir_slots]
    decide
  exact createEntryImpl_crossing_run absent (by decide) (by decide) run crosses

end FtlOs
