import FtlOs.Fat32.FatList.Manager

/-!
# The cluster list cache of an inode

`InodeCacheInner` remembers where an inode's cluster chain lies, so that a lookup
need not walk the FAT from the first cluster each time:

* `cid_start`, the first cluster, `FREE` for an empty chain;
* `cid_list`, the first clusters of the chain in order;
* `almost_last`, the offset and id of one cluster further on, the furthest a walk
  has seen;
* `len`, the chain's length, once a walk has reached its end.

The cache is right when every entry agrees with the chain in the FAT: that is
`Coherent`.  The cache of a new inode is coherent, the lookup
`try_get_nth_block_cid` is sound on a coherent cache, and `update_list` keeps
coherence when it is given the offset a walk reports.  `append_last` of a new
cluster at any offset but the one just past the old last cluster breaks coherence.
The debug assertions of the source are off, as in a release build.
-/

namespace FtlOs

/-- A chain of clusters in the FAT `fat`: every member is a cluster id, each
member's entry is the next member, and the last member's entry is not a cluster
id. -/
structure IsChain (fat : Nat → Nat) (C : List Nat) : Prop where
  clusters : ∀ x ∈ C, CID.isNext x = some true
  linked : ∀ i (h : i + 1 < C.length), fat C[i] = C[i + 1]
  ends : ∀ x ∈ C.getLast?, CID.isNext (fat x) = some false

namespace CID

/-- The cluster ids are the entries from 2 below the reserved range. -/
theorem isNext_eq_some_true {v : Nat} : isNext v = some true ↔ 2 ≤ v ∧ v < 0x0FFFFFF0 := by
  unfold isNext status
  split_ifs <;> simp <;> omega

/-- A cluster id is not free. -/
theorem isFree_of_isNext {v : Nat} (next : isNext v = some true) : isFree v = some false := by
  have bounds := isNext_eq_some_true.mp next
  unfold isFree status
  split_ifs <;> simp <;> omega

@[simp] theorem isFree_free : isFree free = some true := rfl

@[simp] theorem isNext_free : isNext free = some false := rfl

end CID

/-- The `n`-th cluster of the chain `C`, or its length when it is shorter: what
`get_nth_block` should return. -/
def nthBlock (C : List Nat) (n : Nat) : Except Nat Nat :=
  match C[n]? with
  | some cid => .ok cid
  | none => .error C.length

/-- `InodeCacheInner`: the cluster list cache, and the file size the short entry
keeps. -/
structure InodeCacheInner where
  cidList : List Nat
  cidStart : Nat
  almostLast : Nat × Nat
  len : Option Nat
  /-- The short entry's `file_bytes`, a `u32`. -/
  fileBytes : Nat
  deriving DecidableEq, Repr

namespace InodeCacheInner

/-- `InodeCacheInner::new`, from the short entry's first cluster and size. -/
def new (cidStart fileBytes : Nat) : Option InodeCacheInner :=
  (CID.isNext cidStart).map fun next =>
    if next then ⟨[cidStart], cidStart, (0, cidStart), none, fileBytes⟩
    else ⟨[], cidStart, (0, cidStart), some 0, fileBytes⟩

/-- `update_file_bytes`: the size is stored as a `u32`. -/
def updateFileBytes (c : InodeCacheInner) (bytes : Nat) : InodeCacheInner :=
  { c with fileBytes := bytes % 2 ^ 32 }

/-- `update_list`: a walk of the FAT saw the entry `cid` at offset `n`. -/
def updateList (c : InodeCacheInner) (cid n : Nat) : Option InodeCacheInner :=
  if (c.cidList[n]?).isSome then some c
  else
    (CID.isNext cid).map fun next =>
      -- the entry after the last cluster: the chain has `n` clusters
      if !next then { c with len := some n }
      else { c with
        almostLast := if c.almostLast.1 ≤ n then (n, cid) else c.almostLast
        cidList := if c.cidList.length = n then c.cidList ++ [cid] else c.cidList }

/-- `list_truncate`: the chain now has at most `n` clusters, the last being `cid`. -/
def listTruncate (c : InodeCacheInner) (n cid : Nat) : InodeCacheInner :=
  if n = 0 then
    { c with cidStart := CID.free, cidList := [], almostLast := (0, CID.free), len := some 0 }
  else { c with cidList := c.cidList.take n, almostLast := (n - 1, cid), len := some n }

/-- `list_last_save`: the furthest cluster known, and its offset; `none` for an
empty chain.  The outer `Option` is a panic of `CID::status`. -/
def listLastSave (c : InodeCacheInner) : Option (Option (Nat × Nat)) :=
  (CID.isFree c.cidStart).map fun free => if free then none else some c.almostLast

/-- The last two checks of `try_get_nth_block_cid`: the list, then `almost_last`. -/
def cachedCid (c : InodeCacheInner) (n : Nat) : Option Nat :=
  match c.cidList[n]? with
  | some cid => some cid
  | none => if c.almostLast.1 = n then some c.almostLast.2 else none

/-- `try_get_nth_block_cid`: `ok` the `n`-th cluster, `error` the chain's length
when it is not longer than `n`, or `none` when the cache does not know.  The outer
`Option` is a panic of `CID::status`. -/
def tryGetNthBlockCid (c : InodeCacheInner) (n : Nat) : Option (Option (Except Nat Nat)) :=
  (CID.isFree c.cidStart).map fun free =>
    if free then some (.error 0)
    else
      match c.len with
      | some x => if x ≤ n then some (.error x) else (c.cachedCid n).map .ok
      | none => (c.cachedCid n).map .ok

/-- `append_first`: the first cluster of an empty chain. -/
def appendFirst (c : InodeCacheInner) (cid : Nat) : InodeCacheInner :=
  { c with cidStart := cid, cidList := c.cidList ++ [cid], almostLast := (0, cid), len := some 1 }

/-- `append_last`: the cluster `cid` was linked at offset `n`; an unknown length is
an `unwrap` panic. -/
def appendLast (c : InodeCacheInner) (n cid : Nat) : Option InodeCacheInner :=
  c.len.map fun len => { c with
    cidList := if c.cidList.length = n then c.cidList ++ [cid] else c.cidList
    almostLast := (n, cid)
    len := some (len + 1) }

/-! ## Coherence -/

/-- The cache agrees with the chain `C` of the inode's clusters. -/
structure Coherent (c : InodeCacheInner) (C : List Nat) : Prop where
  start : c.cidStart = C.headD CID.free
  listPrefix : c.cidList <+: C
  almostLast : C = [] ∧ c.almostLast = (0, CID.free) ∨ C[c.almostLast.1]? = some c.almostLast.2
  len : c.len = none ∨ c.len = some C.length

variable {c c' : InodeCacheInner} {C : List Nat} {fat : Nat → Nat}

/-- A prefix of `C` one short of `C[n]` grows by it to a prefix. -/
theorem prefix_append_of_getElem? {l : List Nat} {n x : Nat} (pre : l <+: C)
    (short : l.length = n) (at_n : C[n]? = some x) : l ++ [x] <+: C := by
  have taken : l = C.take n := by
    rw [← short]
    exact List.prefix_iff_eq_take.mp pre
  have grown : C.take n ++ [x] = C.take (n + 1) := by
    rw [List.take_add_one, at_n, Option.toList_some]
  rw [taken, grown]
  exact List.take_prefix _ _

/-- A member of the cached list is the chain's member at the same offset. -/
theorem getElem?_of_prefix {l : List Nat} {n x : Nat} (pre : l <+: C) (at_n : l[n]? = some x) :
    C[n]? = some x := by
  obtain ⟨t, rfl⟩ := pre
  have inside : n < l.length := (List.getElem?_eq_some_iff.mp at_n).1
  rw [List.getElem?_append_left inside, at_n]

/-- The cache of a new inode agrees with its chain. -/
theorem new_coherent {cidStart fileBytes : Nat} (chain : IsChain fat C)
    (start : cidStart = C.headD CID.free) (built : new cidStart fileBytes = some c) :
    c.Coherent C := by
  cases C with
  | nil =>
    subst start
    simp only [new, List.headD_nil, CID.isNext_free, Option.map_some, Option.some.injEq] at built
    subst built
    exact ⟨rfl, List.nil_prefix, .inl ⟨rfl, rfl⟩, .inr rfl⟩
  | cons x rest =>
    have next := chain.clusters x List.mem_cons_self
    simp only [new, start, List.headD_cons, next, Option.map_some, Option.some.injEq] at built
    subst built
    refine ⟨rfl, ?_, .inr rfl, .inl rfl⟩
    exact List.prefix_cons_inj x |>.mpr List.nil_prefix

/-- On a coherent cache `try_get_nth_block_cid` answers only what the chain says. -/
theorem tryGetNthBlockCid_sound (coherent : c.Coherent C) (chain : IsChain fat C) {n : Nat}
    {r : Except Nat Nat} (hit : c.tryGetNthBlockCid n = some (some r)) : r = nthBlock C n := by
  cases C with
  | nil =>
    simp only [tryGetNthBlockCid, coherent.start, List.headD_nil, CID.isFree_free, Option.map_some, if_true,
      Option.some.injEq] at hit
    subst hit
    rfl
  | cons x rest =>
    have notFree := CID.isFree_of_isNext (chain.clusters x List.mem_cons_self)
    simp only [tryGetNthBlockCid, coherent.start, List.headD_cons, notFree, Option.map_some,
      Option.some.injEq, Bool.false_eq_true, if_false] at hit
    -- a hit in the list or at `almost_last` is the chain's cluster
    have cached : ∀ {cid}, c.cachedCid n = some cid → nthBlock (x :: rest) n = .ok cid := by
      intro cid found
      unfold cachedCid at found
      split at found
      case h_1 listed =>
        cases found
        simp [nthBlock, getElem?_of_prefix coherent.listPrefix listed]
      case h_2 =>
        split_ifs at found with atLast
        cases found
        rcases coherent.almostLast with ⟨empty, -⟩ | known
        · cases empty
        · simp [nthBlock, ← atLast, known]
    rcases coherent.len with unknown | known
    · rw [unknown] at hit
      obtain ⟨cid, found, rfl⟩ := Option.map_eq_some_iff.mp hit
      exact (cached found).symm
    · simp only [known] at hit
      split_ifs at hit with past
      · cases hit
        have beyond : (x :: rest)[n]? = none := List.getElem?_eq_none past
        simp [nthBlock, beyond]
      · obtain ⟨cid, found, rfl⟩ := Option.map_eq_some_iff.mp hit
        exact (cached found).symm

/-- `update_list` keeps coherence when the walk reports the chain's cluster at `n`,
or the end of the chain at its length. -/
theorem updateList_coherent (coherent : c.Coherent C) (chain : IsChain fat C) {cid n : Nat}
    (seen : C[n]? = some cid ∨ n = C.length ∧ CID.isNext cid = some false)
    (updated : c.updateList cid n = some c') : c'.Coherent C := by
  unfold updateList at updated
  by_cases listed : (c.cidList[n]?).isSome
  · rw [if_pos listed] at updated
    cases updated
    exact coherent
  rw [if_neg listed] at updated
  obtain ⟨next, isNext, rfl⟩ := Option.map_eq_some_iff.mp updated
  cases next with
  | false =>
    -- the end of the chain: a member would be a cluster id
    have atEnd : n = C.length := by
      rcases seen with member | ⟨atEnd, -⟩
      · have := chain.clusters cid (List.mem_of_getElem? member)
        rw [this] at isNext
        cases isNext
      · exact atEnd
    simp only [Bool.not_false, ↓reduceIte]
    exact ⟨coherent.start, coherent.listPrefix, coherent.almostLast, .inr (atEnd ▸ rfl)⟩
  | true =>
    have member : C[n]? = some cid := by
      rcases seen with member | ⟨-, notNext⟩
      · exact member
      · rw [notNext] at isNext
        cases isNext
    -- `almost_last`, whether or not it moved, is a cluster of the chain
    have almost : C = [] ∧ (if c.almostLast.1 ≤ n then (n, cid) else c.almostLast) = (0, CID.free) ∨
        C[(if c.almostLast.1 ≤ n then (n, cid) else c.almostLast).1]? =
          some (if c.almostLast.1 ≤ n then (n, cid) else c.almostLast).2 := by
      split_ifs
      · exact .inr member
      · exact coherent.almostLast
    have grown : (if c.cidList.length = n then c.cidList ++ [cid] else c.cidList) <+: C := by
      split_ifs with short
      · exact prefix_append_of_getElem? coherent.listPrefix short member
      · exact coherent.listPrefix
    simp only [Bool.not_true, Bool.false_eq_true, ↓reduceIte]
    exact ⟨coherent.start, grown, almost, coherent.len⟩

/-- `append_last` of a new cluster at any other offset breaks coherence: no
cache after it agrees with the grown chain. -/
theorem appendLast_not_coherent (fresh : cid ∉ C) {n : Nat} (offset : n ≠ C.length)
    (appended : c.appendLast n cid = some c') : ¬c'.Coherent (C ++ [cid]) := by
  obtain ⟨len, -, rfl⟩ := Option.map_eq_some_iff.mp appended
  intro coherent
  rcases coherent.almostLast with ⟨empty, -⟩ | recorded
  · simp at empty
  · -- the recorded offset holds `cid`, which sits only just past `C`
    simp only at recorded
    rcases Nat.lt_or_ge n C.length with inside | outside
    · rw [List.getElem?_append_left inside] at recorded
      exact fresh (List.mem_of_getElem? recorded)
    · have atEnd := (List.getElem?_eq_some_iff.mp recorded).1
      simp only [List.length_append, List.length_singleton] at atEnd
      omega

end InodeCacheInner

end FtlOs
