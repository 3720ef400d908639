import Mathlib

/-!
# Runs of a partial step function

A component driven by a sequence of calls, any of which may stop the system
(a panic), is a partial step function `step : σ → α → Option σ`.  `run` feeds it
a list of calls.  The invariant rule: a property that every allowed call
preserves holds after every run made of allowed calls.  The progress rule: when
every allowed call succeeds from a state with the property and keeps it, no run
of allowed calls stops the system.  The simulation rule: when every call succeeds from a state
that stands for an abstract state, into one that stands for the abstract step's result, every
run succeeds into a state that stands for the abstract run's result.
-/

namespace Run

variable {σ α : Type*}

/-- Feed a list of calls to a partial step function; `none` once a call fails. -/
def run (step : σ → α → Option σ) : σ → List α → Option σ
  | s, [] => some s
  | s, a :: rest => (step s a).bind fun s' => run step s' rest

variable {step : σ → α → Option σ}

@[simp] theorem run_nil (s : σ) : run step s [] = some s := rfl

@[simp] theorem run_cons (s : σ) (a : α) (rest : List α) :
    run step s (a :: rest) = (step s a).bind fun s' => run step s' rest := rfl

theorem run_append (s : σ) (calls more : List α) :
    run step s (calls ++ more) = (run step s calls).bind fun s' => run step s' more := by
  induction calls generalizing s with
  | nil => rfl
  | cons a rest ih => simp [ih, Option.bind_assoc]

/-- The invariant rule: preserved by every allowed call, so by every run of them. -/
theorem invariant_of_run {inv : σ → Prop} {allowed : α → Prop}
    (preserve : ∀ s a s', inv s → allowed a → step s a = some s' → inv s') :
    ∀ (calls : List α) (s s' : σ), inv s → (∀ a ∈ calls, allowed a) →
      run step s calls = some s' → inv s'
  | [], s, s', holds, _, finished => by
      cases finished
      exact holds
  | a :: rest, s, s', holds, allAllowed, finished => by
      rw [run_cons, Option.bind_eq_some_iff] at finished
      obtain ⟨next, stepped, finished⟩ := finished
      have nextHolds := preserve s a next holds (allAllowed a List.mem_cons_self) stepped
      exact invariant_of_run preserve rest next s' nextHolds
        (fun b member => allAllowed b (List.mem_cons_of_mem a member)) finished

/-- The progress rule: every allowed call succeeds from a state with the invariant and
keeps it, so every run of allowed calls succeeds, into a state with the invariant. -/
theorem run_of_progress {inv : σ → Prop} {allowed : α → Prop}
    (progress : ∀ s a, inv s → allowed a → ∃ s', step s a = some s' ∧ inv s') :
    ∀ (calls : List α) (s : σ), inv s → (∀ a ∈ calls, allowed a) →
      ∃ s', run step s calls = some s' ∧ inv s'
  | [], s, holds, _ => ⟨s, rfl, holds⟩
  | a :: rest, s, holds, allAllowed => by
      obtain ⟨next, stepped, nextHolds⟩ := progress s a holds (allAllowed a List.mem_cons_self)
      rw [run_cons, stepped, Option.bind_some]
      exact run_of_progress progress rest next nextHolds
        (fun b member => allAllowed b (List.mem_cons_of_mem a member))

/-- The simulation rule: every call succeeds from a state related to an abstract state, into a
state related to the abstract step's result; so every run succeeds, into a state related to
the abstract run's result. -/
theorem run_of_simulation {τ : Type*} {rel : σ → τ → Prop} {abstract : τ → α → τ}
    (simulate : ∀ s m a, rel s m → ∃ s', step s a = some s' ∧ rel s' (abstract m a)) :
    ∀ (calls : List α) (s : σ) (m : τ), rel s m →
      ∃ s', run step s calls = some s' ∧ rel s' (calls.foldl abstract m)
  | [], s, _, related => ⟨s, rfl, related⟩
  | a :: rest, s, m, related => by
      obtain ⟨next, stepped, nextRelated⟩ := simulate s m a related
      rw [run_cons, stepped, Option.bind_some]
      exact run_of_simulation simulate rest next (abstract m a) nextRelated

end Run
