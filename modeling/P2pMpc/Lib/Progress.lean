import Mathlib.Algebra.BigOperators.Group.List.Basic
import Mathlib.Algebra.Order.Ring.Nat
import P2pMpc.Lib.Machine

/-!
# Runs that come to rest

Some steps of a machine are internal: they go on with what is under way. The others bring something
new in. Let a measure fall with every internal step, and rise with any other by at most the cost of
its label. Then the steps that are brought in pay for the internal ones (`run_count_internal_le`);
and where an internal step is possible as long as something is left to do, internal steps alone
lead to a state in which nothing is (`exists_run_to_rest`).
-/

namespace StateMachine

/-- Under an invariant `K`, the measure falls with every internal step and rises with another by its
cost at most. -/
structure Amortised {σ ℓ : Type*} (M : Machine σ ℓ) (K : σ → Prop) (measure : σ → ℕ)
    (internal : ℓ → Bool) (cost : ℓ → ℕ) : Prop where
  keeps : ∀ s l t, K s → M.step s l = some t → K t
  pays : ∀ s l t, K s → M.step s l = some t →
    measure t + (if internal l then 1 else 0) ≤ measure s + if internal l then 0 else cost l

namespace Amortised

variable {σ ℓ : Type*} {M : Machine σ ℓ} {K : σ → Prop} {measure : σ → ℕ} {internal : ℓ → Bool}
  {cost : ℓ → ℕ} {s t : σ} {l : ℓ} {ls : List ℓ}

theorem lt_of_internal (h : Amortised M K measure internal cost) (hs : K s)
    (hl : M.step s l = some t) (hi : internal l = true) : measure t < measure s := by
  have hpays := h.pays s l t hs hl
  simp only [hi, if_true] at hpays
  omega

/-- The internal steps of a run are paid for by its start and by the other steps. -/
theorem run_count_internal_le (h : Amortised M K measure internal cost) (hs : K s)
    (hr : M.run s ls = some t) : measure t + ls.countP internal ≤
      measure s + ((ls.filter fun l => !internal l).map cost).sum := by
  induction ls generalizing s with
  | nil =>
    cases hr
    simp
  | cons l ls ih =>
    obtain ⟨u, hu, hur⟩ := Machine.run_cons_eq_some.1 hr
    have hrest := ih (h.keeps s l u hs hu) hur
    have hpays := h.pays s l u hs hu
    cases hi : internal l <;> simp [hi] at hpays ⊢ <;> omega

/-- Internal steps lead to a state with nothing left to do, if one of them is possible in every
other state. -/
theorem exists_run_to_rest (h : Amortised M K measure internal cost) {Rest : σ → Prop}
    (hstep : ∀ s, K s → ¬ Rest s → ∃ l t, internal l = true ∧ M.step s l = some t) (hs : K s) :
    ∃ ls t, (∀ l ∈ ls, internal l = true) ∧ M.run s ls = some t ∧ Rest t := by
  induction hn : measure s using Nat.strongRecOn generalizing s with
  | _ n ih =>
    subst hn
    by_cases hrest : Rest s
    · exact ⟨[], s, by simp, rfl, hrest⟩
    · obtain ⟨l, u, hi, hl⟩ := hstep s hs hrest
      obtain ⟨ls, t, hls, hr, ht⟩ :=
        ih (measure u) (h.lt_of_internal hs hl hi) (h.keeps s l u hs hl) rfl
      refine ⟨l :: ls, t, ?_, Machine.run_cons_eq_some.2 ⟨u, hl, hr⟩, ht⟩
      intro l' hl'
      rcases List.mem_cons.1 hl' with rfl | hl'
      · exact hi
      · exact hls l' hl'

end Amortised

end StateMachine
