import FtlOs.Fat32.Inode.RawInode

/-!
# Walking a chain

What the lookups of a `RawInode` return on a chain of the FAT.  A chain has no
repeated cluster (the last entry ends it, so a cluster met twice would have to be
both inside and last), hence at most one member per cluster id, and the fuel
`FatList::travel` is given always suffices.  A walk from a cluster of the chain
reports only entries the chain holds, so the cache stays coherent when it learns
them.

On a coherent inode, a lookup of a block that is the last one or past it answers
what the chain says: `get_nth_block_alloc` rests on exactly these two lookups.
-/

namespace FtlOs

variable {fat : Nat → Nat} {C : List Nat}

namespace IsChain

/-- Two offsets of a chain that hold one cluster hold one cluster from then on. -/
theorem getElem_add (chain : IsChain fat C) {a b t : Nat} (hab : a < b) (hb : b + t < C.length)
    (same : C[a] = C[b]) : C[a + t] = C[b + t] := by
  induction t with
  | zero => exact same
  | succ t ih =>
    have agree := ih (by omega) same
    calc C[a + t + 1] = fat C[a + t] := (chain.linked (a + t) (by omega)).symm
      _ = fat C[b + t] := by rw [agree]
      _ = C[b + t + 1] := chain.linked (b + t) (by omega)

/-- The entry of a member: the next member, or past the last one a value that is
not a cluster id. -/
theorem entry (chain : IsChain fat C) (i : Nat) (hi : i < C.length) :
    C[i + 1]? = some (fat C[i]) ∨ i + 1 = C.length ∧ CID.isNext (fat C[i]) = some false := by
  by_cases inside : i + 1 < C.length
  · left
    rw [List.getElem?_eq_getElem inside, chain.linked i inside]
  · right
    have atEnd : i + 1 = C.length := by omega
    refine ⟨atEnd, chain.ends _ ?_⟩
    rw [List.getLast?_eq_getElem?]
    simp [show C.length - 1 = i by omega, hi]

/-- The entry of the last member is not a cluster id. -/
theorem ends_last (chain : IsChain fat C) (nonempty : 0 < C.length) :
    CID.isNext (fat C[C.length - 1]) = some false :=
  chain.ends _ (by simp [List.getLast?_eq_getElem?, nonempty])

/-- A cluster met twice would be followed by a cluster id at the later offset's
last step, where the chain ends. -/
theorem not_repeat (chain : IsChain fat C) {a b : Nat} (hab : a < b) (hb : b < C.length)
    (same : C[a] = C[b]) : False := by
  have agree := chain.getElem_add hab (t := C.length - 1 - b) (by omega) same
  have lastAt : b + (C.length - 1 - b) = C.length - 1 := by omega
  have inside : a + (C.length - 1 - b) + 1 < C.length := by omega
  -- the entry of the repeated cluster is a member, and the entry of the last is not
  have member := chain.clusters _ (List.getElem_mem inside)
  rw [← chain.linked _ inside, agree] at member
  simp only [lastAt] at member
  rw [chain.ends_last (by omega)] at member
  cases member

/-- A chain holds each cluster once. -/
theorem nodup (chain : IsChain fat C) : C.Nodup := by
  rw [List.nodup_iff_injective_get]
  rintro ⟨a, ha⟩ ⟨b, hb⟩ same
  simp only [List.get_eq_getElem] at same
  rcases Nat.lt_trichotomy a b with lt | eq | gt
  · exact (chain.not_repeat lt hb same).elim
  · exact Fin.ext eq
  · exact (chain.not_repeat gt ha same.symm).elim

/-- A chain has at most one member per cluster id. -/
theorem length_le (chain : IsChain fat C) : C.length ≤ 0x0FFFFFF0 - 2 := by
  have inRange : C.toFinset ⊆ Finset.Ico 2 0x0FFFFFF0 := by
    intro x member
    have bounds := CID.isNext_eq_some_true.mp (chain.clusters x (List.mem_toFinset.mp member))
    exact Finset.mem_Ico.mpr bounds
  calc C.length = C.toFinset.card := (List.toFinset_card_of_nodup chain.nodup).symm
    _ ≤ (Finset.Ico 2 0x0FFFFFF0).card := Finset.card_le_card inRange
    _ = 0x0FFFFFF0 - 2 := Nat.card_Ico _ _

/-- Linking a fresh cluster id after the last member, as `alloc_block_after` does,
grows the chain by it. -/
theorem append_linked (chain : IsChain fat C) {last x : Nat} (isLast : C.getLast? = some last)
    (fresh : x ∉ C) (next : CID.isNext x = some true) :
    IsChain (Function.update (Function.update fat x CID.last) last x) (C ++ [x]) := by
  have lastMem : last ∈ C := List.mem_of_getLast? isLast
  have lastAt : C[C.length - 1]? = some last := by rwa [← List.getLast?_eq_getElem?]
  -- the members other than the last keep their entries
  have keeps : ∀ i (hi : i + 1 < C.length), C[i] ≠ last ∧ C[i] ≠ x := by
    intro i hi
    refine ⟨fun atLast => ?_, fun isX => fresh (isX ▸ List.getElem_mem _)⟩
    have lastIdx := List.getElem?_eq_some_iff.mp lastAt
    exact chain.not_repeat (show i < C.length - 1 by omega) lastIdx.1 (atLast.trans lastIdx.2.symm)
  refine ⟨?_, ?_, ?_⟩
  · intro y member
    rcases List.mem_append.mp member with old | new
    · exact chain.clusters y old
    · rw [List.mem_singleton.mp new]
      exact next
  · intro i hi
    simp only [List.length_append, List.length_singleton] at hi
    by_cases inside : i + 1 < C.length
    · obtain ⟨notLast, notX⟩ := keeps i inside
      simp only [List.getElem_append_left inside, List.getElem_append_left (show i < C.length by omega),
        Function.update_of_ne notLast, Function.update_of_ne notX]
      exact chain.linked i inside
    · have atEnd : i = C.length - 1 := by omega
      subst atEnd
      have inRange : C.length - 1 < C.length := by omega
      have isLastAt : C[C.length - 1] = last := (List.getElem?_eq_some_iff.mp lastAt).2
      simp only [List.getElem_append_left inRange, isLastAt,
        Function.update_self, List.getElem_append_right (show C.length ≤ C.length - 1 + 1 by omega),
        show C.length - 1 + 1 - C.length = 0 by omega, List.getElem_singleton]
  · intro y isLast'
    simp only [List.getLast?_append, List.getLast?_singleton, Option.some_or, Option.mem_def,
      Option.some.injEq] at isLast'
    subst isLast'
    have notLast : x ≠ last := fun same => fresh (same ▸ lastMem)
    rw [Function.update_of_ne notLast, Function.update_self]
    rfl

end IsChain

/-- What a walk of the chain `C` may report: a member at its offset, or the entry
past the last member at the chain's length. -/
def Sees (C : List Nat) (p : Nat × Nat) : Prop :=
  C[p.2]? = some p.1 ∨ p.2 = C.length ∧ CID.isNext p.1 = some false

/-- The entry of a member is what a walk reports at the next offset. -/
theorem IsChain.sees_entry (chain : IsChain fat C) (i : Nat) (hi : i < C.length) :
    Sees C (fat C[i], i + 1) :=
  chain.entry i hi

namespace FatList

variable {β : Type} {op : Nat × Nat → Nat → Nat → Option (ControlFlow β (Nat × Nat))}

/-- A pass of the walk at a cluster id whose entry `op` continues at. -/
theorem travelLoop_cont {α : Type} {op : α → Nat → Nat → Option (ControlFlow β α)}
    {fuel cur i : Nat} {a a' : α} (next : CID.isNext cur = some true)
    (goesOn : op a (fat cur) i = some (.cont a')) :
    travelLoop fat op (fuel + 1) cur i a =
      (travelLoop fat op fuel (fat cur) (i + 1) a').map fun r => ((fat cur, i) :: r.1, r.2) := by
  simp only [travelLoop, next, goesOn, Option.bind_eq_bind, Option.bind_some, Bool.not_true,
    Bool.false_eq_true, ↓reduceIte]
  cases travelLoop fat op fuel (fat cur) (i + 1) a' <;> rfl

/-- A pass of the walk at a cluster id whose entry `op` stops at. -/
theorem travelLoop_stop {α : Type} {op : α → Nat → Nat → Option (ControlFlow β α)}
    {fuel cur i : Nat} {a : α} {b : β} (next : CID.isNext cur = some true)
    (stops : op a (fat cur) i = some (.stop b)) :
    travelLoop fat op (fuel + 1) cur i a = some ([(fat cur, i)], .stop b) := by
  simp only [travelLoop, next, stops, Option.bind_eq_bind, Option.bind_some, Bool.not_true,
    Bool.false_eq_true, ↓reduceIte]
  rfl

/-- A walk from offset `j` of a chain, under an `op` that continues at each member
before offset `m` and stops at the entry of offset `m`, stops there, having
reported only what the chain holds.  The induction is on the fuel, which must
cover the `m - j` passes. -/
theorem travelLoop_along (chain : IsChain fat C) {r : β} {m j fuel : Nat} (before : j < m)
    (within : m ≤ C.length) (enough : m - j ≤ fuel)
    (goesOn : ∀ k (hk : k < C.length), j < k → k < m → ∀ prev, op prev C[k] k = some (.cont (k, C[k])))
    (stopsAt : op (m - 1, C[m - 1]) (fat C[m - 1]) m = some (.stop r)) :
    ∃ seen, travelLoop fat op fuel C[j] (j + 1) (j, C[j]) = some (seen, .stop r) ∧
      ∀ p ∈ seen, Sees C p := by
  induction fuel generalizing j with
  | zero => omega
  | succ fuel ih =>
    have hj : j < C.length := by omega
    have next := chain.clusters _ (List.getElem_mem hj)
    by_cases last : j + 1 = m
    · -- the entry of offset `j` is where `op` stops
      subst last
      simp only [Nat.add_sub_cancel] at stopsAt
      refine ⟨_, travelLoop_stop next stopsAt, ?_⟩
      simpa using chain.sees_entry j hj
    · have hj1 : j + 1 < C.length := by omega
      have link : fat C[j] = C[j + 1] := chain.linked j hj1
      have step := goesOn (j + 1) hj1 (by omega) (by omega) (j, C[j])
      rw [← link] at step
      obtain ⟨seen, walked, sees⟩ := ih (j := j + 1) (by omega) (by omega)
        (fun k hk after below => goesOn k hk (by omega) below) stopsAt
      rw [travelLoop_cont next step, link, walked]
      refine ⟨_, rfl, ?_⟩
      simp only [List.mem_cons, forall_eq_or_imp]
      exact ⟨.inl (List.getElem?_eq_getElem hj1), sees⟩

/-- `travel` from a member of a chain: the fuel it is given covers any chain. -/
theorem travel_along (chain : IsChain fat C) {r : β} {m j : Nat} (before : j < m)
    (within : m ≤ C.length)
    (goesOn : ∀ k (hk : k < C.length), j < k → k < m → ∀ prev, op prev C[k] k = some (.cont (k, C[k])))
    (stopsAt : op (m - 1, C[m - 1]) (fat C[m - 1]) m = some (.stop r)) :
    ∃ seen, travel fat C[j] j (j, C[j]) op = some (seen, .stop r) ∧ ∀ p ∈ seen, Sees C p :=
  travelLoop_along chain before within (by have := chain.length_le; omega) goesOn stopsAt

end FatList

/-- `nthBlock` answers a cluster only at an offset the chain has. -/
theorem getElem?_of_nthBlock_ok {n cid : Nat} (answer : nthBlock C n = .ok cid) : C[n]? = some cid := by
  unfold nthBlock at answer
  split at answer
  case h_1 found => cases answer; exact found
  case h_2 => cases answer

theorem nthBlock_of_lt {n : Nat} (inside : n < C.length) : nthBlock C n = .ok C[n] := by
  simp [nthBlock, List.getElem?_eq_getElem inside]

theorem nthBlock_of_le {n : Nat} (past : C.length ≤ n) : nthBlock C n = .error C.length := by
  simp [nthBlock, List.getElem?_eq_none past]

namespace InodeCacheInner

variable {c : InodeCacheInner}

/-- `update_list` of what a walk of the chain reports does not panic. -/
theorem updateList_isSome (chain : IsChain fat C) {cid n : Nat} (seen : Sees C (cid, n)) :
    ∃ c', c.updateList cid n = some c' := by
  have known : ∃ b, CID.isNext cid = some b := by
    rcases seen with member | ⟨-, ends⟩
    · exact ⟨true, chain.clusters cid (List.mem_of_getElem? member)⟩
    · exact ⟨false, ends⟩
  obtain ⟨b, known⟩ := known
  unfold updateList
  by_cases listed : (c.cidList[n]?).isSome
  · exact ⟨c, if_pos listed⟩
  · rw [if_neg listed, known]
    exact ⟨_, rfl⟩

/-- Learning what a walk of the chain reports keeps the cache coherent. -/
theorem updateAll_coherent (coherent : c.Coherent C) (chain : IsChain fat C)
    {seen : List (Nat × Nat)} (sees : ∀ p ∈ seen, Sees C p) :
    ∃ c', c.updateAll seen = some c' ∧ c'.Coherent C := by
  induction seen generalizing c with
  | nil => exact ⟨c, rfl, coherent⟩
  | cons p rest ih =>
    obtain ⟨c₁, updated⟩ := updateList_isSome (c := c) chain (sees p List.mem_cons_self)
    have coherent₁ := updateList_coherent coherent chain (sees p List.mem_cons_self) updated
    obtain ⟨c', done, coherent'⟩ := ih coherent₁ fun q member => sees q (List.mem_cons_of_mem p member)
    exact ⟨c', by simp [updateAll, updated, done], coherent'⟩

/-- On a coherent cache `try_get_nth_block_cid` does not panic. -/
theorem tryGetNthBlockCid_isSome (coherent : c.Coherent C) (chain : IsChain fat C) (n : Nat) :
    ∃ r, c.tryGetNthBlockCid n = some r := by
  unfold tryGetNthBlockCid
  cases C with
  | nil => simp [coherent.start]
  | cons x rest => simp [coherent.start, CID.isFree_of_isNext (chain.clusters x List.mem_cons_self)]

/-- When a coherent cache does not know block `n`, the chain is not empty, the walk
starts from `almost_last`, a member, and that member is not block `n`. -/
theorem miss_facts (coherent : c.Coherent C) (chain : IsChain fat C) {n : Nat}
    (miss : c.tryGetNthBlockCid n = some none) :
    c.listLastSave = some (some c.almostLast) ∧ C[c.almostLast.1]? = some c.almostLast.2 ∧
      c.almostLast.1 ≠ n := by
  cases C with
  | nil => simp [tryGetNthBlockCid, coherent.start] at miss
  | cons x rest =>
    have notFree := CID.isFree_of_isNext (chain.clusters x List.mem_cons_self)
    have member : (x :: rest)[c.almostLast.1]? = some c.almostLast.2 := by
      rcases coherent.almostLast with ⟨empty, -⟩ | member
      · cases empty
      · exact member
    -- a miss is a miss of both the list and `almost_last`
    have cachedMiss : c.cachedCid n = none := by
      simp only [tryGetNthBlockCid, coherent.start, List.headD_cons, notFree, Option.map_some,
        Option.some.injEq, Bool.false_eq_true, if_false] at miss
      split at miss
      · split_ifs at miss
        simpa using miss
      · simpa using miss
    refine ⟨by simp [listLastSave, coherent.start, notFree], member, fun atN => ?_⟩
    unfold cachedCid at cachedMiss
    split at cachedMiss
    · cases cachedMiss
    · simp [atN] at cachedMiss

end InodeCacheInner

namespace RawInode

variable {n k j : Nat} {prev : Nat × Nat} {x : Nat}

theorem nthStep_cont (next : CID.isNext x = some true) (other : k ≠ n) :
    nthStep n prev x k = some (.cont (k, x)) := by
  simp [nthStep, next, other]

theorem nthStep_at (next : CID.isNext x = some true) : nthStep n prev x n = some (.stop (n, x)) := by
  simp [nthStep, next]

theorem nthStep_end (ends : CID.isNext x = some false) : nthStep n prev x k = some (.stop prev) := by
  simp [nthStep, ends]

/-- The walk of `get_nth_block_cid` for a block past the chain stops at its last
member. -/
theorem travel_nthStep_past (chain : IsChain fat C) (hj : j < C.length) (past : C.length ≤ n) :
    ∃ seen, FatList.travel fat C[j] j (j, C[j]) (nthStep n) =
      some (seen, .stop (C.length - 1, C[C.length - 1])) ∧ ∀ p ∈ seen, Sees C p :=
  FatList.travel_along chain hj le_rfl
    (fun k hk _ _ _ => nthStep_cont (chain.clusters _ (List.getElem_mem hk)) (by omega))
    (nthStep_end (chain.ends_last (by omega)))

/-- The walk of `get_nth_block_cid` from before block `n` of the chain stops at it. -/
theorem travel_nthStep_at (chain : IsChain fat C) (before : j < n) (inside : n < C.length) :
    ∃ seen, FatList.travel fat C[j] j (j, C[j]) (nthStep n) = some (seen, .stop (n, C[n])) ∧
      ∀ p ∈ seen, Sees C p := by
  have link : fat C[n - 1] = C[n] := by
    have linked := chain.linked (n - 1) (by omega)
    simpa [Nat.sub_add_cancel (show 1 ≤ n by omega)] using linked
  refine FatList.travel_along chain before inside.le
    (fun k hk _ below _ => nthStep_cont (chain.clusters _ (List.getElem_mem hk)) (by omega)) ?_
  rw [link]
  exact nthStep_at (chain.clusters _ (List.getElem_mem inside))

/-- A `RawInode` agrees with the chain `C`: its cache does, and so does the block
it looked up last. -/
structure Coherent (ino : RawInode) (C : List Nat) : Prop where
  cache : ino.cache.Coherent C
  lastCache : ∀ k x, ino.lastCache = some (k, x) → C[k]? = some x

variable {ino : RawInode}

/-- On a coherent cache, `get_nth_block_cid` of the last block or of one past the
chain answers what the chain says, and the cache stays coherent.  A walk from
`almost_last` past block `n` would answer the last cluster, but `almost_last` is
never past the last block. -/
theorem getNthBlockCid_near_end (coherent : ino.cache.Coherent C) (chain : IsChain fat C)
    (near : C.length ≤ n + 1) :
    ∃ c', ino.getNthBlockCid fat n = some (nthBlock C n, { ino with cache := c' }) ∧ c'.Coherent C := by
  obtain ⟨r, tried⟩ := ino.cache.tryGetNthBlockCid_isSome coherent chain n
  cases r with
  | some r =>
    -- the cache answers, and rightly
    refine ⟨ino.cache, ?_, coherent⟩
    simp [getNthBlockCid, tried, InodeCacheInner.tryGetNthBlockCid_sound coherent chain tried]
  | none =>
    obtain ⟨saved, atJ, notN⟩ := InodeCacheInner.miss_facts coherent chain tried
    rcases almost : ino.cache.almostLast with ⟨j, x⟩
    rw [almost] at saved atJ notN
    simp only at atJ notN
    obtain ⟨hj, isX⟩ := List.getElem?_eq_some_iff.mp atJ
    subst isX
    -- the walk from `almost_last` stops at block `n`, or at the last member
    have walk : ∃ seen off cid, FatList.travel fat C[j] j (j, C[j]) (nthStep n) =
        some (seen, .stop (off, cid)) ∧ (∀ p ∈ seen, Sees C p) ∧
        (if off < n then .error (off + 1) else .ok cid) = nthBlock C n := by
      by_cases past : C.length ≤ n
      · obtain ⟨seen, walked, sees⟩ := travel_nthStep_past chain hj past
        refine ⟨seen, _, _, walked, sees, ?_⟩
        simp [nthBlock_of_le past, show C.length - 1 < n by omega,
          Nat.sub_add_cancel (show 1 ≤ C.length by omega)]
      · have inside : n < C.length := by omega
        obtain ⟨seen, walked, sees⟩ := travel_nthStep_at chain (show j < n by omega) inside
        refine ⟨seen, _, _, walked, sees, ?_⟩
        simp [nthBlock_of_lt inside]
    obtain ⟨seen, off, cid, walked, sees, answer⟩ := walk
    obtain ⟨c', updated, coherent'⟩ := InodeCacheInner.updateAll_coherent coherent chain sees
    refine ⟨c', ?_, coherent'⟩
    simp only [getNthBlockCid, tried, saved, walked, updated, ControlFlow.value, Option.pure_def,
      Option.bind_eq_bind, Option.bind_some]
    exact congrArg (fun r => some (r, { ino with cache := c' })) answer

/-- `find_nth_block` after a lookup, from the cache or from a walk, that answered `x`
and left the cache `c'`: it answers `x`, and a block found becomes `last_cache`. -/
theorem findNthBlock_of_lookup {x : Except Nat Nat} {c' : InodeCacheInner}
    (lookup : ino.cache.tryGetNthBlockCid n = some (some x) ∧ c' = ino.cache ∨
      ino.cache.tryGetNthBlockCid n = some none ∧
        ino.getNthBlockCid fat n = some (x, { ino with cache := c' })) :
    ∃ ino', ino.findNthBlock fat n = some (x, ino') ∧ ino'.cache = c' ∧
      ∀ k cid, ino'.lastCache = some (k, cid) →
        ino.lastCache = some (k, cid) ∨ k = n ∧ x = .ok cid := by
  rcases lookup with ⟨tried, rfl⟩ | ⟨tried, walked⟩
  · cases x <;> simp [findNthBlock, tried]
  · cases x <;> simp [findNthBlock, tried, walked]

/-- `get_nth_block` past its `last_cache` check, near the end of the chain: as
`get_nth_block_cid`, and a block found becomes `last_cache`. -/
theorem findNthBlock_near_end (coherent : ino.Coherent C) (chain : IsChain fat C)
    (near : C.length ≤ n + 1) :
    ∃ ino', ino.findNthBlock fat n = some (nthBlock C n, ino') ∧ ino'.Coherent C := by
  -- the lookup, from the cache or from a walk, answers what the chain says
  obtain ⟨c', lookup, coherent'⟩ : ∃ c' : InodeCacheInner,
      (ino.cache.tryGetNthBlockCid n = some (some (nthBlock C n)) ∧ c' = ino.cache ∨
        ino.cache.tryGetNthBlockCid n = some none ∧
          ino.getNthBlockCid fat n = some (nthBlock C n, { ino with cache := c' })) ∧
      c'.Coherent C := by
    obtain ⟨r, tried⟩ := ino.cache.tryGetNthBlockCid_isSome coherent.cache chain n
    cases r with
    | some r =>
      rw [InodeCacheInner.tryGetNthBlockCid_sound coherent.cache chain tried] at tried
      exact ⟨ino.cache, .inl ⟨tried, rfl⟩, coherent.cache⟩
    | none =>
      obtain ⟨c', got, coherent'⟩ := getNthBlockCid_near_end coherent.cache chain near
      exact ⟨c', .inr ⟨tried, got⟩, coherent'⟩
  obtain ⟨ino', found, cache, last⟩ := findNthBlock_of_lookup lookup
  refine ⟨ino', found, cache ▸ coherent', fun k x recorded => ?_⟩
  -- `last_cache` is the old one, or the block just found
  rcases last k x recorded with old | ⟨rfl, answer⟩
  · exact coherent.lastCache k x old
  · exact getElem?_of_nthBlock_ok answer

/-- On a coherent inode, `get_nth_block` of the last block or of one past the chain
answers what the chain says, and the inode stays coherent. -/
theorem getNthBlock_near_end (coherent : ino.Coherent C) (chain : IsChain fat C)
    (near : C.length ≤ n + 1) :
    ∃ ino', ino.getNthBlock fat n = some (nthBlock C n, ino') ∧ ino'.Coherent C := by
  unfold getNthBlock
  split
  case h_1 ln cid last =>
    split_ifs with atN
    · -- `last_cache` holds block `n`
      subst atN
      have known := coherent.lastCache ln cid last
      exact ⟨ino, by simp [nthBlock, known], coherent⟩
    · exact findNthBlock_near_end coherent chain near
  case h_2 => exact findNthBlock_near_end coherent chain near

end RawInode

end FtlOs
