import Mathlib

/-!
# Waits that end

A run is an infinite sequence of states. A wait ends in a run when a well-founded
measure never grows while the wait lasts and, from every time on, drops at some
later step. Fairness is what gives the drops: an obligation that some party has is
eventually discharged, and `exists_change_step` finds the step at which its phase
first moves.
-/

namespace Liveness

variable {σ α β : Type*}

/-- The first step at which a value leaves what it was at time `n`. -/
theorem exists_change_step (f : ℕ → β) (n : ℕ) (changes : ∃ m ≥ n, f m ≠ f n) :
    ∃ m ≥ n, f m = f n ∧ f (m + 1) ≠ f n := by
  classical
  have later : ∃ k, f (n + k) ≠ f n := by
    obtain ⟨m, after, differs⟩ := changes
    exact ⟨m - n, by rwa [Nat.add_sub_cancel' after]⟩
  have first : 0 < Nat.find later := by
    rw [Nat.pos_iff_ne_zero]
    intro zero
    exact Nat.find_spec later (by rw [zero, Nat.add_zero])
  refine ⟨n + (Nat.find later - 1), by omega, ?_, ?_⟩
  · by_contra differs
    exact Nat.find_min later (by omega : Nat.find later - 1 < Nat.find later) differs
  · rw [show n + (Nat.find later - 1) + 1 = n + Nat.find later by omega]
    exact Nat.find_spec later

/-- A wait ends in every run in which the measure never grows while the wait lasts
and, from any time while it lasts, drops at some later step. -/
theorem wait_ends [Preorder α] [WellFoundedLT α] (trace : ℕ → σ) (waiting : σ → Prop)
    (μ : σ → α)
    (mono : ∀ n, waiting (trace n) → waiting (trace (n + 1)) → μ (trace (n + 1)) ≤ μ (trace n))
    (drops : ∀ n, waiting (trace n) → ∃ m ≥ n, waiting (trace m) → waiting (trace (m + 1)) →
      μ (trace (m + 1)) < μ (trace m)) :
    ∀ n, waiting (trace n) → ∃ m ≥ n, ¬ waiting (trace m) := by
  suffices ∀ a n, μ (trace n) = a → waiting (trace n) → ∃ m ≥ n, ¬ waiting (trace m) from
    fun n => this _ n rfl
  intro a
  induction a using WellFoundedLT.induction with
  | _ a ih =>
    intro n measured waits
    by_cases ends : ∃ m ≥ n, ¬ waiting (trace m)
    · exact ends
    have forever : ∀ m ≥ n, waiting (trace m) := fun m after =>
      by_contra fun stopped => ends ⟨m, after, stopped⟩
    -- the measure stays at most where it was at `n`
    have chain : ∀ d, μ (trace (n + d)) ≤ μ (trace n) := by
      intro d
      induction d with
      | zero => exact le_rfl
      | succ d ih =>
        exact (mono (n + d) (forever _ (by omega)) (forever _ (by omega))).trans ih
    obtain ⟨m, after, dropped⟩ := drops n waits
    have below : μ (trace (m + 1)) < a := by
      have := chain (m - n)
      rw [Nat.add_sub_cancel' after] at this
      exact measured ▸ (dropped (forever m after) (forever (m + 1) (by omega))).trans_le this
    obtain ⟨k, later, stopped⟩ := ih _ below (m + 1) rfl (forever (m + 1) (by omega))
    exact absurd (forever k (by omega)) stopped

end Liveness
