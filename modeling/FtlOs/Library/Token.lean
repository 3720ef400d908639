import Mathlib

/-!
# A flag that records a token

Agents `ι`, each in a phase `φ`, and a flag that is set exactly while one agent's phase holds
a token (`Records`).  The flag stays faithful when an agent takes the token while the flag is
clear and sets it (`Records.take`), when the holder gives the token back and clears it
(`Records.give`), and when an agent moves between phases that agree on holding it and the flag
is left alone (`Records.keep`).

Over the agents `Fin k` the holder can be looked up (`holder`).  What a lock is for is then a
token that is taken while nobody holds it and given back by its holder (`Pass`): whenever
one agent moves and the flag records the token before and after, the holder stays or the
token passes (`holder_update`).
-/

namespace Token

variable {ι φ : Type*}

/-- The flag is set exactly while an agent holds the token, and at most one does. -/
structure Records (flag : Bool) (holds : φ → Bool) (phase : ι → φ) : Prop where
  set_iff : flag = true ↔ ∃ i, holds (phase i)
  one : ∀ i j, holds (phase i) → holds (phase j) → i = j

variable {flag : Bool} {holds : φ → Bool} {phase : ι → φ}

theorem Records.not_holds (records : Records flag holds phase) (clear : flag = false) (j : ι) :
    holds (phase j) = false := by
  cases holding : holds (phase j)
  · rfl
  · have set := records.set_iff.mpr ⟨j, holding⟩
    rw [clear] at set
    cases set

theorem Records.flag_eq_true (records : Records flag holds phase) {i : ι}
    (holding : holds (phase i) = true) : flag = true :=
  records.set_iff.mpr ⟨i, holding⟩

variable [DecidableEq ι]

/-- What a move of agent `i` from `f i` to `ph` does not change about its phase, it changes
about no agent's phase. -/
theorem update_keeps {α : Type*} (p : φ → α) {f : ι → φ} {i : ι} {ph : φ}
    (same : p ph = p (f i)) (j : ι) : p (Function.update f i ph j) = p (f j) := by
  by_cases here : j = i
  · subst here
    simpa using same
  · rw [Function.update_of_ne here]

/-- A move between phases that agree on holding the token. -/
theorem Records.keep (records : Records flag holds phase) {i : ι} {ph : φ}
    (same : holds ph = holds (phase i)) : Records flag holds (Function.update phase i ph) := by
  refine ⟨?_, fun j k => ?_⟩
  · simpa only [update_keeps holds same] using records.set_iff
  · simpa only [update_keeps holds same] using records.one j k

/-- An agent takes the token while the flag is clear, and sets it. -/
theorem Records.take (records : Records flag holds phase) (clear : flag = false) {i : ι}
    {ph : φ} (takes : holds ph = true) : Records true holds (Function.update phase i ph) := by
  -- the taker is the only holder: nobody held the token before
  have onlyI : ∀ j, holds (Function.update phase i ph j) = true → j = i := by
    intro j holding
    by_contra here
    rw [Function.update_of_ne here, records.not_holds clear j] at holding
    cases holding
  refine ⟨⟨fun _ => ⟨i, by simpa using takes⟩, fun _ => rfl⟩, fun j k holdsJ holdsK => ?_⟩
  rw [onlyI j holdsJ, onlyI k holdsK]

/-- The holder gives the token back, and clears the flag. -/
theorem Records.give (records : Records flag holds phase) {i : ι} {ph : φ}
    (holding : holds (phase i) = true) (gives : holds ph = false) :
    Records false holds (Function.update phase i ph) := by
  -- after the move nobody holds the token: only `i` did
  have nobody : ∀ j, holds (Function.update phase i ph j) = false := by
    intro j
    by_cases here : j = i
    · subst here
      simpa using gives
    · rw [Function.update_of_ne here]
      cases holdingJ : holds (phase j)
      · rfl
      · exact absurd (records.one j i holdingJ holding) here
  refine ⟨by simp [nobody], fun j k holdsJ => ?_⟩
  rw [nobody j] at holdsJ
  cases holdsJ

/-! ## The holder -/

/-- The moves of a token as its agents see them: taken while nobody holds it, or given back
by its holder. -/
inductive Pass {ι : Type*} : Option ι → Option ι → Prop
  | take (i : ι) : Pass none (some i)
  | give (i : ι) : Pass (some i) none

section Holder

variable {k : ℕ} {flag flag' : Bool} {holds : φ → Bool} {phase : Fin k → φ}

/-- The agent that holds the token, looked up among the agents `Fin k`. -/
def holder (holds : φ → Bool) (phase : Fin k → φ) : Option (Fin k) :=
  (List.finRange k).find? fun i => holds (phase i)

theorem holder_eq_none (nobody : ∀ i, holds (phase i) = false) : holder holds phase = none := by
  simp [holder, List.find?_eq_none, nobody]

theorem Records.holder_eq_some (records : Records flag holds phase) {i : Fin k}
    (holding : holds (phase i) = true) : holder holds phase = some i := by
  obtain ⟨j, found⟩ : ∃ j, holder holds phase = some j := by
    apply Option.ne_none_iff_exists'.mp
    simp only [holder, ne_eq, List.find?_eq_none, List.mem_finRange, true_implies, not_forall,
      not_not]
    exact ⟨i, holding⟩
  have holdsJ : holds (phase j) = true := by
    unfold holder at found
    exact List.find?_some (p := fun i => holds (phase i)) found
  rw [found, records.one j i holdsJ holding]

/-- The flag says whether anybody holds the token. -/
theorem Records.flag_eq_isSome (records : Records flag holds phase) :
    flag = (holder holds phase).isSome := by
  cases holding : flag
  · rw [holder_eq_none (records.not_holds holding)]
    rfl
  · obtain ⟨i, holdsI⟩ := records.set_iff.mp holding
    rw [records.holder_eq_some holdsI]
    rfl

/-- One agent moves, and the flag records the token before and after: the holder stays, or
the token passes. -/
theorem holder_update (before : Records flag holds phase) {i : Fin k} {ph : φ}
    (after : Records flag' holds (Function.update phase i ph)) :
    holder holds (Function.update phase i ph) = holder holds phase ∨
      Pass (holder holds phase) (holder holds (Function.update phase i ph)) := by
  by_cases same : holds ph = holds (phase i)
  · left
    simp only [holder, update_keeps holds same]
  · right
    cases gains : holds ph
    · -- `i` gives the token back: it held it, and nobody holds it after
      have held : holds (phase i) = true := by
        cases holdsI : holds (phase i)
        · rw [gains, holdsI] at same
          exact absurd rfl same
        · rfl
      rw [before.holder_eq_some held, holder_eq_none fun j => ?_]
      · exact .give i
      by_cases here : j = i
      · subst here
        simpa using gains
      · rw [Function.update_of_ne here]
        cases holdsJ : holds (phase j)
        · rfl
        · exact absurd (before.one j i holdsJ held) here
    · -- `i` takes the token: nobody held it before
      have taken : holds (Function.update phase i ph i) = true := by simpa using gains
      rw [after.holder_eq_some taken, holder_eq_none fun j => ?_]
      · exact .take i
      by_cases here : j = i
      · subst here
        cases holdsJ : holds (phase j)
        · rfl
        · rw [gains, holdsJ] at same
          exact absurd rfl same
      · cases holdsJ : holds (phase j)
        · rfl
        · have holdsAfter : holds (Function.update phase i ph j) = true := by
            rw [Function.update_of_ne here, holdsJ]
          exact absurd (after.one j i holdsAfter taken) here

end Holder

end Token
