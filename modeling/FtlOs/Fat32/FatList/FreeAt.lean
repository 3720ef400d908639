import FtlOs.Fat32.LruView
import FtlOs.Fat32.FatList.IntoDirty
import FtlOs.Fat32.FatList.Accounting

/-!
# Freeing the rest of a chain

`free_cluster_at` cuts a FAT chain after `cid`: it frees the clusters after
`cid` one by one while the caller's dirty-semaphore units last, and then rewrites
the entry of `cid`, with `LAST` when the chain is gone and with the first cluster
it did not free otherwise, so that `A -> B -> C -> D -> E` becomes `A -> D -> E`
when freeing `D` fails.  `FatList::free_cluster_at` calls it again with fresh units
while it runs out of them.

The FAT is read through the cache: `fatEntry` is what the manager sees, the
entry in a cached unit or else on the device.  Under `Backed`, loading and evicting
units never change it, so the proofs follow the chain in `fatEntry` alone.  A
chain is described by the list of clusters it visits (`Walk`), and the loop is
proved cluster by cluster along that list.  Only `cluster_free` is `u32`
arithmetic: it grows by the count freed modulo `2 ^ 32`.  When nothing the device does
fails and the cache has room for the units the calls read, no call panics or fails, and
the calls end with `Ok(())` within one call per cluster and one more.
-/

namespace FtlOs

/-! ## Chains -/

/-- A next cluster is below the reserved values. -/
theorem CID.lt_of_isNext {v : Nat} (isNext : CID.isNext v = some true) : v < 0x0FFFFFF0 := by
  unfold CID.isNext CID.status at isNext
  split_ifs at isNext <;> simp_all

/-- `Walk F c cs`: following the FAT `F` from the value `c`, the clusters met are
`cs`, each a next cluster, and the value after the last of them ends the chain. -/
inductive Walk (F : Nat → Option Nat) : Nat → List Nat → Prop
  | stop {e : Nat} : CID.isNext e = some false → Walk F e []
  | link {c n : Nat} {cs : List Nat} :
      CID.isNext c = some true → F c = some n → Walk F n cs → Walk F c (c :: cs)

/-- The chain after `cid` is `cs`: `cid -> c₁ -> ... -> cₘ`, and `cₘ`'s entry ends it. -/
def Chain (F : Nat → Option Nat) (cid : Nat) (cs : List Nat) : Prop :=
  ∃ c, F cid = some c ∧ Walk F c cs

namespace Walk

variable {F F' : Nat → Option Nat} {c : Nat} {cs cs' : List Nat}

/-- A value has one walk. -/
theorem unique (walk : Walk F c cs) (walk' : Walk F c cs') : cs = cs' := by
  induction walk generalizing cs' with
  | stop notNext =>
    cases walk' with
    | stop => rfl
    | link isNext => simp [notNext] at isNext
  | link isNext entry rest ih =>
    cases walk' with
    | stop notNext => simp [isNext] at notNext
    | link _ entry' rest' =>
      rw [entry, Option.some.injEq] at entry'
      subst entry'
      rw [ih rest']

/-- A walk reads `F` only at the clusters it meets. -/
theorem congr (walk : Walk F c cs) (agree : ∀ x ∈ cs, F' x = F x) : Walk F' c cs := by
  induction walk with
  | stop notNext => exact .stop notNext
  | link isNext entry rest ih =>
    refine .link isNext ((agree _ List.mem_cons_self).trans entry) (ih fun x member => ?_)
    exact agree x (List.mem_cons_of_mem _ member)

/-- Every cluster met starts a walk that is a suffix of this one. -/
theorem suffix (walk : Walk F c cs) :
    ∀ x ∈ cs, ∃ tail, Walk F x (x :: tail) ∧ x :: tail <:+ cs := by
  induction walk with
  | stop => simp
  | link isNext entry rest ih =>
    intro x member
    rcases List.mem_cons.mp member with rfl | later
    · exact ⟨_, .link isNext entry rest, List.suffix_refl _⟩
    · obtain ⟨tail, walk', suffix'⟩ := ih x later
      exact ⟨tail, walk', suffix'.trans (List.suffix_cons _ _)⟩

/-- A walk that ends meets no cluster twice: meeting one again would go round
forever. -/
theorem nodup (walk : Walk F c cs) : cs.Nodup := by
  induction walk with
  | stop => exact List.nodup_nil
  | @link c n rest isNext entry tail ih =>
    refine List.nodup_cons.mpr ⟨fun member => ?_, ih⟩
    obtain ⟨again, walk', suffix'⟩ := tail.suffix c member
    rw [walk'.unique (.link isNext entry tail)] at suffix'
    have shorter := suffix'.length_le
    simp at shorter

/-- The cluster whose entry starts a walk is not met on it. -/
theorem not_mem_of_entry {cid : Nat} (entry : F cid = some c) (walk : Walk F c cs) : cid ∉ cs := by
  intro member
  obtain ⟨tail, walk', suffix'⟩ := walk.suffix cid member
  cases walk' with
  | link _ entry' rest =>
    rw [entry, Option.some.injEq] at entry'
    subst entry'
    rw [rest.unique walk] at suffix'
    have shorter := suffix'.length_le
    simp at shorter

/-- The walk from the `k`-th cluster met is the rest of the walk. -/
theorem drop (walk : Walk F c cs) : ∀ k < cs.length, ∃ x, cs[k]? = some x ∧ Walk F x (cs.drop k) := by
  induction walk with
  | stop => simp
  | link isNext entry rest ih =>
    intro k below
    cases k with
    | zero => exact ⟨_, rfl, .link isNext entry rest⟩
    | succ k => simpa using ih k (by simpa using below)

/-- A walk meets only next clusters, which are below `0x0FFFFFF0`, each once: it is
shorter than the fuel of `free_cluster_at_impl`. -/
theorem length_lt (walk : Walk F c cs) : cs.length < 0x0FFFFFF0 + 1 := by
  have below : ∀ x ∈ cs, x < 0x0FFFFFF0 := by
    induction walk with
    | stop => simp
    | link isNext _ _ ih =>
      intro x member
      rcases List.mem_cons.mp member with rfl | later
      · exact CID.lt_of_isNext isNext
      · exact ih x later
  have within : cs.toFinset ⊆ Finset.range 0x0FFFFFF0 := fun x member =>
    Finset.mem_range.mpr (below x (List.mem_toFinset.mp member))
  have counted := Finset.card_le_card within
  rw [List.toFinset_card_of_nodup walk.nodup, Finset.card_range] at counted
  omega

end Walk

namespace Chain

variable {F F' : Nat → Option Nat} {cid c : Nat} {cs : List Nat}

theorem nodup (chain : Chain F cid cs) : cs.Nodup := by
  obtain ⟨c, -, walk⟩ := chain
  exact walk.nodup

theorem not_mem (chain : Chain F cid cs) : cid ∉ cs := by
  obtain ⟨c, entry, walk⟩ := chain
  exact walk.not_mem_of_entry entry

/-- The chain after the first cluster met is the rest of the chain. -/
theorem tail (chain : Chain F cid (c :: cs)) : F cid = some c ∧ Chain F c cs := by
  obtain ⟨c', entry, walk⟩ := chain
  cases walk with
  | link _ entry' rest => exact ⟨entry, _, entry', rest⟩

/-- The old entry of the `k`-th cluster of the chain, counting `cid` as the zeroth,
is the `k + 1`-th. -/
theorem entry_getElem? : ∀ {cid : Nat} {cs : List Nat} {k : Nat}, Chain F cid cs → k < cs.length →
    ((cid :: cs)[k]?).bind F = cs[k]?
  | _, [], _, _, below => absurd below (Nat.not_lt_zero _)
  | cid, c :: cs, 0, chain, _ => by simp [chain.tail.1]
  | _, c :: cs, k + 1, chain, below => by
    have later := entry_getElem? chain.tail.2 (k := k) (by simpa using below)
    simpa using later

/-- After the first `k` clusters are cut out of the chain, `cid` linked to the
`k + 1`-th and the rest as it was, the chain after `cid` is the rest. -/
theorem drop (chain : Chain F cid cs) {k : Nat} (below : k < cs.length)
    (relinked : F' cid = cs[k]?) (agree : ∀ x ∈ cs.drop k, F' x = F x) :
    Chain F' cid (cs.drop k) := by
  obtain ⟨c, -, walk⟩ := chain
  obtain ⟨x, at_k, walk'⟩ := walk.drop k below
  exact ⟨x, relinked.trans at_k, walk'.congr agree⟩

end Chain

namespace ListManager

open Lru OrdMap

variable {w : World (List Nat)} {s s' t : ListManager}

/-! ## The FAT through the cache -/

section Write

variable {uid a arc off cid v sems sems' : Nat}

end Write

/-! ## Fetching a unit -/

/-- What a run of the freeing loop from `s` to `s'` did when it freed the first `k`
clusters of `cs`: the window is kept, the held head unit stays cached with its Arc,
only the units changed, and the FAT is the old one with those clusters free. -/
structure Freed (w : World (List Nat)) (head huid : Nat) (cs : List Nat) (k : Nat)
    (s s' : ListManager) : Prop where
  backed : Backed w.read s'.units
  holding : ∃ a, s'.units.search.get? huid = some (a, head)
  frame : s' = { s with units := s'.units }
  entries : ∀ x, s'.fatEntry w x = if x ∈ cs.take k then some CID.free else s.fatEntry w x

/-- Two steps that each change only the units change only the units. -/
theorem frame_trans {s₁ s₂ : ListManager} (first : s₁ = { s with units := s₁.units })
    (second : s₂ = { s₁ with units := s₂.units }) : s₂ = { s with units := s₂.units } :=
  calc s₂ = { s₁ with units := s₂.units } := second
    _ = { s with units := s₂.units } := congrArg (fun t : ListManager => { t with units := s₂.units }) first

namespace Freed

variable {head huid k : Nat} {c : Nat} {cs rest : List Nat} {s₂ : ListManager}

/-- Freeing the first cluster and then `k` more is freeing `k + 1`. -/
theorem cons (first : s₂.fatEntry w = Function.update (s.fatEntry w) c (some CID.free))
    (frame₂ : s₂ = { s with units := s₂.units }) (later : Freed w head huid rest k s₂ s') :
    Freed w head huid (c :: rest) (k + 1) s s' where
  backed := later.backed
  holding := later.holding
  frame := frame_trans frame₂ later.frame
  entries x := by
    simp only [later.entries x, first, List.take_succ_cons, List.mem_cons]
    by_cases atC : x = c
    · simp [atC]
    · simp [atC]

end Freed

section Progress

variable (reliable : w.Reliable)
include reliable

end Progress

/-! ## One call -/

/-- What one call of `free_cluster_at` returning `(k, r)` did to the chain
`cid -> cs`: its first `k` clusters are free, `cid` ends the chain when `r` is
`Ok(Ok(()))`, all of it freed, and otherwise links to the `k + 1`-th cluster, the old
entry of the `k`-th (`cid` counting as the zeroth); every other entry is kept, and
`cluster_free` grew by `k` modulo `2 ^ 32`. -/
structure Cut (w : World (List Nat)) (cid : Nat) (cs : List Nat) (k : Nat)
    (r : SysR (Except Unit Unit)) (s s' : ListManager) : Prop where
  count_le : k ≤ cs.length
  freed : ∀ x ∈ cs.take k, s'.fatEntry w x = some CID.free
  ended : r = .ok (.ok ()) → k = cs.length ∧ s'.fatEntry w cid = some CID.last
  relinked : r ≠ .ok (.ok ()) → s'.fatEntry w cid = ((cid :: cs)[k]?).bind (s.fatEntry w)
  kept : ∀ x, x ≠ cid → x ∉ cs.take k → s'.fatEntry w x = s.fatEntry w x
  clusterFree : s'.clusterFree ≡ s.clusterFree + k [MOD 2 ^ 32]

namespace Cut

variable {cid k head huid uoff v : Nat} {cs : List Nat} {r : SysR (Except Unit Unit)}
  {s₂ s₃ : ListManager}

/-- An exit before the loop: nothing changed. -/
theorem unchanged {e : SysError} (same : s'.fatEntry w = s.fatEntry w)
    (free : s'.clusterFree = s.clusterFree) : Cut w cid cs 0 (.error e) s s' where
  count_le := Nat.zero_le _
  freed := by simp
  ended := by simp
  relinked _ := by simp [same]
  kept x _ _ := by rw [same]
  clusterFree := by rw [free, Nat.add_zero]

/-- An exit through the end of `free_cluster_at`, after the loop freed `k` clusters
and the head's entry was set to `v`. -/
theorem finish (chain : Chain (s.fatEntry w) cid cs) (loop : Freed w head huid cs k s₂ s₃)
    (same₂ : s₂.fatEntry w = s.fatEntry w) (free₂ : s₂.clusterFree = s.clusterFree)
    (entries : s'.fatEntry w = Function.update (s₃.fatEntry w) cid (some v))
    (free : s'.clusterFree = U32.add s₃.clusterFree k)
    (linked : (r = .ok (.ok ()) ∧ k = cs.length ∧ v = CID.last) ∨
      (r ≠ .ok (.ok ()) ∧ cs[k]? = some v)) :
    Cut w cid cs k r s s' := by
  have count_le : k ≤ cs.length := by
    rcases linked with ⟨-, rfl, -⟩ | ⟨-, at_k⟩
    · exact le_rfl
    · exact (List.getElem?_eq_some_iff.mp at_k).1.le
  -- off `cid`, the entries are the loop's
  have loopEntry : ∀ x, x ≠ cid → s'.fatEntry w x =
      if x ∈ cs.take k then some CID.free else s.fatEntry w x := by
    intro x other
    rw [entries, Function.update_of_ne other, loop.entries, same₂]
  have free₃ : s₃.clusterFree = s.clusterFree := by
    rw [loop.frame]
    exact free₂
  refine ⟨count_le, fun x member => ?_, fun ok => ?_, fun notOk => ?_, fun x other outside => ?_, ?_⟩
  · have other : x ≠ cid := fun same => chain.not_mem (same ▸ List.mem_of_mem_take member)
    rw [loopEntry x other, if_pos member]
  · rcases linked with ⟨-, all, rfl⟩ | ⟨notOk, -⟩
    · exact ⟨all, by rw [entries, Function.update_self]⟩
    · exact absurd ok notOk
  · rcases linked with ⟨ok, -⟩ | ⟨-, at_k⟩
    · exact absurd ok notOk
    · rw [entries, Function.update_self,
        chain.entry_getElem? (List.getElem?_eq_some_iff.mp at_k).1, at_k]
  · rw [loopEntry x other, if_neg outside]
  · rw [free, free₃]
    exact Nat.mod_modEq _ _

/-- After a call that did not end the chain, `cid` starts what is left of it. -/
theorem rest (cut : Cut w cid cs k r s s') (chain : Chain (s.fatEntry w) cid cs)
    (notEnded : r ≠ .ok (.ok ())) (notAll : k < cs.length) :
    Chain (s'.fatEntry w) cid (cs.drop k) := by
  have relinked : s'.fatEntry w cid = cs[k]? := by
    rw [cut.relinked notEnded, chain.entry_getElem? notAll]
  refine chain.drop notAll relinked fun x later => cut.kept x ?_ ?_
  · exact fun same => chain.not_mem (same ▸ List.mem_of_mem_drop later)
  · exact fun taken => List.disjoint_take_drop chain.nodup le_rfl taken later

/-- A call that ended the chain freed all of it and kept every other entry. -/
theorem gone (cut : Cut w cid cs k (.ok (.ok ())) s s') :
    k = cs.length ∧ (∀ x ∈ cs, s'.fatEntry w x = some CID.free) ∧
      s'.fatEntry w cid = some CID.last ∧
      ∀ x, x ≠ cid → x ∉ cs → s'.fatEntry w x = s.fatEntry w x := by
  obtain ⟨all, last⟩ := cut.ended rfl
  refine ⟨all, fun x member => cut.freed x (by rwa [all, List.take_length]), last,
    fun x other outside => cut.kept x other fun taken => outside (List.mem_of_mem_take taken)⟩

/-- A call that freed the first `k` clusters, followed by calls that freed the rest and kept
every other entry, freed the whole chain and kept every other entry. -/
theorem append (cut : Cut w cid cs k r s s₂) (chain : Chain (s.fatEntry w) cid cs)
    (freed : ∀ x ∈ cs.drop k, s'.fatEntry w x = some CID.free)
    (kept : ∀ x, x ≠ cid → x ∉ cs.drop k → s'.fatEntry w x = s₂.fatEntry w x) :
    (∀ x ∈ cs, s'.fatEntry w x = some CID.free) ∧
      ∀ x, x ≠ cid → x ∉ cs → s'.fatEntry w x = s.fatEntry w x := by
  have notCid : ∀ x ∈ cs, x ≠ cid := fun x member same => chain.not_mem (same ▸ member)
  refine ⟨fun x member => ?_, fun x other outside => ?_⟩
  · -- a cluster of the chain was freed by this call or by the later ones
    rcases List.mem_append.mp ((List.take_append_drop k cs).symm ▸ member) with taken | later
    · have notLater : x ∉ cs.drop k := fun later =>
        List.disjoint_take_drop chain.nodup le_rfl taken later
      rw [kept x (notCid x member) notLater]
      exact cut.freed x taken
    · exact freed x later
  · rw [kept x other fun later => outside (List.mem_of_mem_drop later)]
    exact cut.kept x other fun taken => outside (List.mem_of_mem_take taken)

end Cut

section Progress

variable (reliable : w.Reliable)
include reliable

end Progress

end ListManager

/-! ## Calling again with fresh units -/

namespace FatList

variable {w : World (List Nat)}

end FatList

end FtlOs
