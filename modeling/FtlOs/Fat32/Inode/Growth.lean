import FtlOs.Fat32.Inode.Walk

/-!
# Growing a chain

`get_nth_block_alloc` of block `n` past the end of a chain of `L` clusters finds
the length with `get_nth_block`, the last cluster with `get_nth_block_cid`, and
then links `n - L` clusters from the free list one after another.  The loop is
right: each round grows the chain by a fresh cluster (`allocMore_links`).  The
count is not: block `n` needs `n + 1 - L` clusters, so the call stops one short
and answers block `n - 1`, which already holds data when `n = L`.
-/

namespace FtlOs

/-- The free list hands out distinct cluster ids outside the chain `C`. -/
structure Volume.Fresh (v : Volume) (C : List Nat) : Prop where
  nodup : v.free.Nodup
  clusters : ∀ x ∈ v.free, CID.isNext x = some true
  outside : ∀ x ∈ v.free, x ∉ C

/-- Handing out the head of a fresh free list leaves the rest fresh for the chain
grown by the head. -/
theorem Volume.Fresh.next {v w : Volume} {D rest : List Nat} {x : Nat} (fresh : v.Fresh D)
    (hfree : v.free = x :: rest) (wFree : w.free = rest) : w.Fresh (D ++ [x]) := by
  have distinct := fresh.nodup
  rw [hfree, List.nodup_cons] at distinct
  have inFree : ∀ y ∈ rest, y ∈ v.free := fun y member => by simp [hfree, member]
  rw [← wFree] at distinct inFree
  refine ⟨distinct.2, fun y member => fresh.clusters y (inFree y member), fun y member => ?_⟩
  simp only [List.mem_append, List.mem_singleton, not_or]
  exact ⟨fresh.outside y (inFree y member), fun same => distinct.1 (same ▸ member)⟩

namespace RawInode

variable {C : List Nat} {v v' : Volume} {ino ino' : RawInode} {init : List UInt8 → List UInt8}
  {n cid : Nat}

/-- The allocation loop of `get_nth_block_alloc`, run `k` rounds from the last
cluster of the chain `D` without an error, links the next `k` free clusters after
it.  The induction is on `k`, the chain growing by one cluster a round. -/
theorem allocMore_links {D : List Nat} {k len last : Nat} {update : List (Nat × Nat)}
    (chain : IsChain v.fat D) (isLast : D.getLast? = some cid) (fresh : v.Fresh D)
    (done : allocMore init k cid len v = (update, last, v', none)) :
    k ≤ v.free.length ∧ IsChain v'.fat (D ++ v.free.take k) ∧
      (D ++ v.free.take k).getLast? = some last ∧ v'.free = v.free.drop k := by
  induction k generalizing D cid len v update with
  | zero =>
    simp only [allocMore, Prod.mk.injEq] at done
    obtain ⟨-, rfl, rfl, -⟩ := done
    simpa using ⟨chain, isLast⟩
  | succ k ih =>
    cases hfree : v.free with
    | nil => simp [allocMore, Volume.allocBlockAfter, hfree] at done
    | cons x rest =>
      simp only [allocMore, Volume.allocBlockAfter, hfree] at done
      -- the round links `x` after `cid`; the rest of the loop starts from `D ++ [x]`
      set V : Volume := Volume.getBlockInit
        { v with fat := Function.update (Function.update v.fat x CID.last) cid x, free := rest } x init
      rcases hr : allocMore init k x (len + 1) V with ⟨u, l, w, e⟩
      rw [hr] at done
      simp only [Prod.mk.injEq] at done
      obtain ⟨-, rfl, rfl, rfl⟩ := done
      have xFresh : x ∉ D := fresh.outside x (by simp [hfree])
      have chain' : IsChain V.fat (D ++ [x]) :=
        chain.append_linked isLast xFresh (fresh.clusters x (by simp [hfree]))
      have freeV : V.free = rest := rfl
      obtain ⟨enough, linked, isLast', taken⟩ := ih chain' (by simp) (fresh.next hfree freeV) hr
      rw [freeV] at enough linked isLast' taken
      refine ⟨by simpa [hfree] using enough, ?_, ?_, ?_⟩
      · simpa using linked
      · simpa using isLast'
      · simpa [hfree, freeV] using taken

/-- `get_nth_block_alloc` of a block `n` at or past the end of a chain of `L ≥ 1`
clusters grows the chain by `n - L` clusters, to `n` in all, and returns the last
of them, block `n - 1`: one cluster short of block `n`. -/
theorem getNthBlockAlloc_past (coherent : ino.Coherent C) (chain : IsChain v.fat C)
    (fresh : v.Fresh C) (nonempty : C ≠ []) (past : C.length ≤ n)
    (allocated : ino.getNthBlockAlloc v n init = some (.ok cid, v', ino')) :
    IsChain v'.fat (C ++ v.free.take (n - C.length)) ∧
      (C ++ v.free.take (n - C.length)).length = n ∧
      (C ++ v.free.take (n - C.length))[n - 1]? = some cid := by
  have positive : 0 < C.length := List.length_pos_iff.mpr nonempty
  -- the two lookups: block `n` is past the chain, and the last block is its last member
  obtain ⟨ino₁, got, coherent₁⟩ := getNthBlock_near_end coherent chain (n := n) (by omega)
  obtain ⟨c₂, gotLast, -⟩ :=
    getNthBlockCid_near_end coherent₁.cache chain (n := C.length - 1) (by omega)
  unfold getNthBlockAlloc at allocated
  simp only [Option.bind_eq_bind, Option.pure_def] at allocated
  rw [got, nthBlock_of_le past] at allocated
  simp only [Option.bind_some, if_neg positive.ne'] at allocated
  rw [gotLast, nthBlock_of_lt (by omega)] at allocated
  simp only [Option.bind_some, Except.toOption, allocStart, if_neg positive.ne'] at allocated
  -- the loop ran without an error, and its last cluster is the answer
  rcases looped : allocMore init (n - C.length) C[C.length - 1] C.length v with ⟨update, last, w, e⟩
  rw [looped] at allocated
  cases e with
  | some e => simp at allocated
  | none =>
    obtain ⟨cache, -, answered⟩ := Option.bind_eq_some_iff.mp allocated
    simp only [show (decide (C.length = n) || decide (C.length < n)) = true by
      simpa using Nat.le_iff_lt_or_eq.mp past |>.symm, if_true, Option.some.injEq,
      Prod.mk.injEq, Except.ok.injEq] at answered
    obtain ⟨rfl, rfl, -⟩ := answered
    have isLast : C.getLast? = some C[C.length - 1] := List.getLast?_eq_getElem? ▸ by simp [positive]
    obtain ⟨enough, linked, grownLast, -⟩ := allocMore_links chain isLast fresh looped
    have grownLength : (C ++ v.free.take (n - C.length)).length = n := by
      simp only [List.length_append, List.length_take]
      omega
    refine ⟨linked, grownLength, ?_⟩
    rw [List.getLast?_eq_getElem?, grownLength] at grownLast
    exact grownLast

/-- Asked for block `n` at or past the end of a chain of `L ≥ 1` clusters,
`get_nth_block_alloc` leaves a chain of `n` clusters, not `n + 1`, and answers its
last cluster, block `n - 1`: the chain grown to block `n` does not hold the answer
there. -/
theorem getNthBlockAlloc_one_short (coherent : ino.Coherent C) (chain : IsChain v.fat C)
    (fresh : v.Fresh C) (nonempty : C ≠ []) (past : C.length ≤ n)
    (allocated : ino.getNthBlockAlloc v n init = some (.ok cid, v', ino')) :
    IsChain v'.fat (C ++ v.free.take (n - C.length)) ∧
      (C ++ v.free.take (n - C.length)).length = n ∧
      (C ++ v.free.take (n - C.length))[n - 1]? = some cid ∧
      (C ++ v.free.take (n + 1 - C.length))[n]? ≠ some cid := by
  have positive : 0 < C.length := List.length_pos_iff.mpr nonempty
  obtain ⟨linked, grownLength, answer⟩ :=
    getNthBlockAlloc_past coherent chain fresh nonempty past allocated
  refine ⟨linked, grownLength, answer, fun claimed => ?_⟩
  -- the chain grown to block `n` would hold the answer at `n - 1` and at `n`, but the
  -- clusters of the chain and of the free list are distinct
  have distinct : (C ++ v.free).Nodup :=
    List.nodup_append.mpr ⟨chain.nodup, fresh.nodup,
      fun x inC y inFree same => fresh.outside y inFree (same ▸ inC)⟩
  have grownDistinct : (C ++ v.free.take (n + 1 - C.length)).Nodup :=
    List.Nodup.sublist ((List.prefix_append_right_inj C).mpr (List.take_prefix _ _)).sublist distinct
  have grown : C ++ v.free.take (n - C.length) <+: C ++ v.free.take (n + 1 - C.length) :=
    (List.prefix_append_right_inj C).mpr (List.take_prefix_take_left (by omega))
  have atPrev := InodeCacheInner.getElem?_of_prefix grown answer
  have inside : n < (C ++ v.free.take (n + 1 - C.length)).length :=
    (List.getElem?_eq_some_iff.mp claimed).1
  exact List.nodup_iff_getElem?_ne_getElem?.mp grownDistinct (n - 1) n (by omega) inside
    (atPrev.trans claimed.symm)

/-- The one-cluster file of `oneCluster` is the chain `[5]`, its inode agrees with
it, and the free list holds other clusters. -/
theorem oneCluster_chain : IsChain oneCluster.fat [5] := by
  refine ⟨by decide, fun i inside => absurd inside (by simp), ?_⟩
  intro x isLast
  simp only [List.getLast?_singleton, Option.mem_def, Option.some.injEq] at isLast
  subst isLast
  decide

theorem oneClusterInode_coherent : oneClusterInode.Coherent [5] :=
  ⟨InodeCacheInner.new_coherent oneCluster_chain rfl
    (rfl : InodeCacheInner.new 5 0 = some oneClusterInode.cache), fun _ _ none => by cases none⟩

theorem oneCluster_fresh : oneCluster.Fresh [5] := ⟨by decide, by decide, by decide⟩

/-- On the one-cluster file, block 1 is answered with block 0. -/
theorem getNthBlockAlloc_one_short_at_one :
    ∃ v' ino', oneClusterInode.getNthBlockAlloc oneCluster 1 id = some (.ok 5, v', ino') ∧
      IsChain v'.fat ([5] ++ oneCluster.free.take (1 - 1)) ∧
      ([5] ++ oneCluster.free.take (1 - 1)).length = 1 ∧
      ([5] ++ oneCluster.free.take (1 - 1))[1 - 1]? = some 5 ∧
      ([5] ++ oneCluster.free.take (1 + 1 - 1))[1]? ≠ some 5 :=
  ⟨_, _, rfl, getNthBlockAlloc_one_short oneClusterInode_coherent oneCluster_chain oneCluster_fresh
    (by decide) (by decide) (rfl : oneClusterInode.getNthBlockAlloc oneCluster 1 id = _)⟩

end RawInode

end FtlOs
