import FtlOs.Util.Rcu.Defs

/-!
# No object is lost or freed twice

After any run, in any interleaving of the harts, every object the cell has held is in exactly
one place: the cell, one hart's queue, `rcu_current`, `rcu_pending`, or among the freed.  Each
instruction of the manager moves whole queues (`fast_append` empties its source, `vec_swap`
exchanges two, the freeing drains `add`), and a write retires the old object as it puts a new
one in the cell.  So no object is freed twice and none is leaked.
-/

namespace FtlOs

namespace Rcu

/-- The objects in the harts' queues. -/
def queued (sides : Hart → Local) : Multiset Obj := ∑ h, ((sides h).pending : Multiset Obj)

/-- Every object by where it is. -/
def inventory (s : State) : Multiset Obj :=
  s.cell ::ₘ (queued s.localRcu + s.cp.rcuCurrent + s.cp.rcuPending + s.freed)

@[simp] theorem fastAppend_snd {α : Type} (dst src : List α) : (fastAppend dst src).2 = [] := by
  unfold fastAppend
  split <;> rfl

/-- `fast_append` moves `src` into `dst`, in some order. -/
@[simp] theorem coe_fastAppend_fst {α : Type} (dst src : List α) :
    ((fastAppend dst src).1 : Multiset α) = dst + src := by
  unfold fastAppend
  split
  · rw [← Multiset.coe_add, add_comm]
  · rfl

/-- Setting one hart's side changes exactly its summand. -/
theorem queued_update (sides : Hart → Local) (id : Hart) (l : Local) :
    queued (Function.update sides id l) + (sides id).pending = queued sides + l.pending := by
  unfold queued
  have others :
      ∑ h ∈ Finset.univ.erase id, ((Function.update sides id l h).pending : Multiset Obj) =
      ∑ h ∈ Finset.univ.erase id, ((sides h).pending : Multiset Obj) :=
    Finset.sum_congr rfl fun h mem => by
      rw [Function.update_of_ne (Finset.ne_of_mem_erase mem)]
  rw [← Finset.add_sum_erase _ _ (Finset.mem_univ id),
    ← Finset.add_sum_erase _ _ (Finset.mem_univ id),
    others, Function.update_self]
  abel

/-- Setting what is not a hart's queue leaves the queues. -/
@[simp] theorem queued_update_pending (sides : Hart → Local) (id : Hart) (critical tick : Bool) :
    queued (Function.update sides id ⟨(sides id).pending, critical, tick⟩) = queued sides := by
  have moved := queued_update sides id ⟨(sides id).pending, critical, tick⟩
  rwa [add_left_inj] at moved

/-- Pushing an object onto a hart's queue adds it to the queues. -/
theorem queued_update_push (sides : Hart → Local) (id : Hart) (o : Obj) :
    queued (Function.update sides id
      ⟨(sides id).pending ++ [o], (sides id).critical, (sides id).tick⟩) =
      o ::ₘ queued sides := by
  have moved :=
    queued_update sides id ⟨(sides id).pending ++ [o], (sides id).critical, (sides id).tick⟩
  rw [← Multiset.coe_add, Multiset.coe_singleton, ← add_assoc, add_right_comm, add_left_inj]
    at moved
  rw [moved, ← Multiset.singleton_add, add_comm]

/-- One instruction of the manager keeps the inventory. -/
theorem inventory_exec {s s' : State} {id : Hart} (h : exec s id = some s') :
    inventory s' = inventory s := by
  cases phase : s.phase id with
  | idle => simp [exec, phase] at h
  | startLoad | startOr | endLoad | endRead prev | unlock =>
    simp only [exec, phase, Option.some.injEq] at h
    subst h
    rfl
  | endCas prev next release needRelease =>
    simp only [exec, phase] at h
    split at h <;> (cases h; rfl)
  | appendPending | appendCurrent | release =>
    -- `add` goes to a queue of the manager or to the freed
    have emptied := queued_update s.localRcu id { s.localRcu id with pending := [] }
    simp only [Multiset.coe_nil, add_zero] at emptied
    simp only [exec, phase, Option.some.injEq] at h
    subst h
    simp only [inventory, State.setPending, State.setLocal, State.setPhase, coe_fastAppend_fst,
      fastAppend_snd, ← emptied, ← Multiset.coe_add]
    congr 1
    abel
  | swap =>
    -- `add` and `rcu_current` change places, and `rcu_pending` joins `add`
    have swapped := queued_update s.localRcu id { s.localRcu id with pending := s.cp.rcuCurrent }
    simp only [exec, phase, Option.some.injEq] at h
    subst h
    simp only [inventory, State.setPending, State.setLocal, State.setPhase, coe_fastAppend_fst,
      fastAppend_snd, Multiset.coe_nil, add_zero]
    rw [← add_assoc, swapped]

/-- `LocalRcuManager::critical_end` hands nothing over itself. -/
theorem criticalEnd_inventory (s : State) (id : Hart) :
    inventory (criticalEnd s id) = inventory s ∧ (criticalEnd s id).fresh = s.fresh := by
  unfold criticalEnd
  dsimp only
  split
  · exact ⟨rfl, rfl⟩
  · simp only [inventory, State.setPhase, State.setLocal, queued_update_pending, and_true]

/-- The frame of an instruction of the manager: the cell, the reads, and the other harts are
left alone, and so is whether the hart is in a section. -/
theorem exec_frame {s s' : State} {id : Hart} (h : exec s id = some s') :
    s'.cell = s.cell ∧ s'.fresh = s.fresh ∧ s'.refs = s.refs ∧
      (s'.localRcu id).critical = (s.localRcu id).critical ∧
      ∀ other, other ≠ id →
        s'.phase other = s.phase other ∧ s'.localRcu other = s.localRcu other := by
  cases phase : s.phase id with
  | idle => simp [exec, phase] at h
  | endCas prev next release needRelease =>
    simp only [exec, phase] at h
    split at h <;>
    · cases h
      simp +contextual [Function.update_of_ne]
  | _ =>
    simp only [exec, phase, Option.some.injEq] at h
    subst h
    simp +contextual [Function.update_of_ne]

/-- A step keeps every object counted once; a write counts the new one. -/
theorem inventory_step {s s' : State} {id : Hart} {a : Action} (h : step s id a = some s')
    (counted : inventory s = Multiset.range s.fresh) : inventory s' = Multiset.range s'.fresh := by
  cases a with
  | exec => rw [inventory_exec h, (exec_frame h).2.1, counted]
  | tick =>
    simp only [step, Option.some.injEq] at h
    subst h
    simpa only [inventory, State.setLocal, queued_update_pending] using counted
  | criticalStart =>
    simp only [step] at h
    split_ifs at h <;> cases h
    · exact counted
    · simpa only [inventory, State.setPhase, State.setLocal, queued_update_pending] using counted
  | criticalEnd =>
    simp only [step] at h
    split_ifs at h
    cases h
    rw [(criticalEnd_inventory s id).1, (criticalEnd_inventory s id).2, counted]
  | criticalEndTick =>
    simp only [step] at h
    split_ifs at h <;> cases h
    · exact counted
    · rw [(criticalEnd_inventory _ id).1, (criticalEnd_inventory _ id).2]
      simpa only [inventory, State.setLocal, queued_update_pending] using counted
  | read =>
    simp only [step] at h
    split_ifs at h
    cases h
    exact counted
  | write =>
    -- the old object joins the hart's queue and the new one takes the cell
    simp only [step] at h
    split_ifs at h
    cases h
    rw [Multiset.range_succ, ← counted]
    simp only [inventory, State.setPending, State.setLocal, queued_update_push, Multiset.cons_add]

theorem mem_queued {sides : Hart → Local} {h : Hart} {o : Obj}
    (member : o ∈ (sides h).pending) :
    o ∈ queued sides :=
  Multiset.mem_sum.mpr ⟨h, Finset.mem_univ h, member⟩

section Counted

variable {s : State} (counted : inventory s = Multiset.range s.fresh)
include counted

/-- The object in the cell is in no queue and was not freed. -/
theorem cell_not_mem :
    s.cell ∉ queued s.localRcu + s.cp.rcuCurrent + s.cp.rcuPending + s.freed := by
  have nodup : (inventory s).Nodup := counted ▸ Multiset.nodup_range s.fresh
  exact (Multiset.nodup_cons.mp nodup).1

theorem cell_not_mem_pending (h : Hart) : s.cell ∉ (s.localRcu h).pending := fun member =>
  cell_not_mem counted (by simp [mem_queued member])

theorem cell_not_mem_rcuCurrent : s.cell ∉ s.cp.rcuCurrent := fun member =>
  cell_not_mem counted (by simp [member])

theorem cell_not_mem_rcuPending : s.cell ∉ s.cp.rcuPending := fun member =>
  cell_not_mem counted (by simp [member])

theorem cell_not_mem_freed : s.cell ∉ s.freed := fun member =>
  cell_not_mem counted (by simp [member])

theorem freed_nodup : s.freed.Nodup := by
  have nodup : (inventory s).Nodup := counted ▸ Multiset.nodup_range s.fresh
  have le : (s.freed : Multiset Obj) ≤ inventory s :=
    (Multiset.le_add_left _ _).trans (Multiset.le_cons_self _ _)
  exact Multiset.coe_nodup.mp (Multiset.nodup_of_le le nodup)

end Counted

/-- After every run, in any interleaving of the harts, each object made so far is in exactly one
place, and no object was freed twice. -/
theorem run_inventory {calls : List (Hart × Action)} {s : State}
    (ran : Run.run system init calls = some s) :
    inventory s = Multiset.range s.fresh ∧ s.freed.Nodup := by
  have preserve : ∀ (s : State) (c : Hart × Action) (s' : State),
      inventory s = Multiset.range s.fresh → True → system s c = some s' →
        inventory s' = Multiset.range s'.fresh :=
    fun _ _ _ counted _ stepped => inventory_step stepped counted
  have counted := Run.invariant_of_run preserve calls init s rfl (fun _ _ => trivial) ran
  exact ⟨counted, freed_nodup counted⟩

end Rcu

end FtlOs
