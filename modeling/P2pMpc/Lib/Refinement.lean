import P2pMpc.Lib.Machine

/-!
# One machine over another

What a step of a machine shows on the outside is a list of labels of a second machine, empty where
nothing is to be seen. The first machine refines the second if what its steps show is, in each case,
a run of the second between the images of its states (`Refines`); it realises the second if it can
show every step of it (`Realises`). Then the traces of its runs are runs of the second machine
(`Refines.run`), and every run of the second is the trace of one of its (`Realises.run`).
-/

namespace StateMachine

variable {σ ℓ τ ν : Type*}

/-- What the steps of a run show. -/
def Machine.trace (M : Machine σ ℓ) (shows : σ → ℓ → List ν) : σ → List ℓ → List ν
  | _, [] => []
  | s, l :: ls => shows s l ++ (M.step s l).elim [] fun t => M.trace shows t ls

/-- Under an invariant `K`, what a step shows is a run of `N` between the images of its states. -/
structure Refines (M : Machine σ ℓ) (N : Machine τ ν) (K : σ → Prop) (f : σ → τ)
    (shows : σ → ℓ → List ν) : Prop where
  init : ∀ s, M.init s → K s ∧ N.init (f s)
  step : ∀ s l t, K s → M.step s l = some t → K t ∧ N.run (f s) (shows s l) = some (f t)

/-- From related states, every step of `N` is what some run of `M` shows, and related states are
reached. -/
structure Realises (M : Machine σ ℓ) (N : Machine τ ν) (R : σ → τ → Prop)
    (shows : σ → ℓ → List ν) : Prop where
  init : ∀ a, N.init a → ∃ s, M.init s ∧ R s a
  step : ∀ s a m b, R s a → N.step a m = some b →
    ∃ ls t, M.run s ls = some t ∧ M.trace shows s ls = [m] ∧ R t b

variable {M : Machine σ ℓ} {N : Machine τ ν} {K : σ → Prop} {f : σ → τ} {R : σ → τ → Prop}
  {shows : σ → ℓ → List ν} {s t : σ} {a b : τ} {l : ℓ} {ls ls' : List ℓ} {ms : List ν}

namespace Machine

@[simp] theorem trace_nil : M.trace shows s [] = [] := rfl

theorem trace_cons (hl : M.step s l = some t) :
    M.trace shows s (l :: ls) = shows s l ++ M.trace shows t ls := by
  rw [trace, hl, Option.elim_some]

theorem trace_append (hr : M.run s ls = some t) :
    M.trace shows s (ls ++ ls') = M.trace shows s ls ++ M.trace shows t ls' := by
  induction ls generalizing s with
  | nil =>
    cases hr
    rfl
  | cons l ls ih =>
    obtain ⟨u, hu, hur⟩ := run_cons_eq_some.1 hr
    rw [List.cons_append, trace_cons hu, trace_cons hu, ih hur, List.append_assoc]

end Machine

namespace Refines

theorem run (h : Refines M N K f shows) (hs : K s) (hr : M.run s ls = some t) :
    N.run (f s) (M.trace shows s ls) = some (f t) := by
  induction ls generalizing s with
  | nil =>
    cases hr
    rfl
  | cons l ls ih =>
    obtain ⟨u, hu, hur⟩ := Machine.run_cons_eq_some.1 hr
    obtain ⟨hKu, hshows⟩ := h.step s l u hs hu
    rw [Machine.trace_cons hu]
    exact Machine.run_append_eq_some.2 ⟨f u, hshows, ih hKu hur⟩

/-- What is true of all reachable states of the second machine is true of the first. -/
theorem reachable (h : Refines M N K f shows) (hs : M.Reachable s) : N.Reachable (f s) := by
  obtain ⟨s₀, ls, h0, hr⟩ := hs
  obtain ⟨hK, hinit⟩ := h.init s₀ h0
  exact ⟨f s₀, _, hinit, h.run hK hr⟩

end Refines

namespace Realises

theorem run (h : Realises M N R shows) (hs : R s a) (hr : N.run a ms = some b) :
    ∃ ls t, M.run s ls = some t ∧ M.trace shows s ls = ms ∧ R t b := by
  induction ms generalizing s a with
  | nil =>
    cases hr
    exact ⟨[], s, rfl, rfl, hs⟩
  | cons m ms ih =>
    obtain ⟨c, hc, hcb⟩ := Machine.run_cons_eq_some.1 hr
    obtain ⟨ls, u, hu, htrace, hR⟩ := h.step s a m c hs hc
    obtain ⟨ls', t, ht, htrace', hR'⟩ := ih hR hcb
    refine ⟨ls ++ ls', t, Machine.run_append_eq_some.2 ⟨u, hu, ht⟩, ?_, hR'⟩
    rw [Machine.trace_append hu, htrace, htrace', List.singleton_append]

/-- The traces of a machine that both refines and realises another are the runs of that one. -/
theorem trace_iff (h : Realises M N R shows) (hf : Refines M N K f shows) (ha : N.init a)
    (hone : ∀ a', N.init a' → a' = a) : (∃ s ls t, M.init s ∧ M.run s ls = some t ∧
      M.trace shows s ls = ms) ↔ ∃ b, N.run a ms = some b := by
  constructor
  · rintro ⟨s, ls, t, hs, hr, rfl⟩
    obtain ⟨hK, hinit⟩ := hf.init s hs
    rw [← hone _ hinit]
    exact ⟨f t, hf.run hK hr⟩
  · rintro ⟨b, hb⟩
    obtain ⟨s, hs, hR⟩ := h.init a ha
    obtain ⟨ls, t, hr, htrace, -⟩ := h.run hR hb
    exact ⟨s, ls, t, hs, hr, htrace⟩

end Realises

end StateMachine
