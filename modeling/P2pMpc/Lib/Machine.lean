import Mathlib.Data.List.Forall2
import Mathlib.Data.Option.Basic

/-!
# Labelled state machines

A machine is a set of initial states and a partial step: `step s l` is the state reached from `s`
by the label `l`, or `none` when `l` is not enabled there. All nondeterminism (the scheduler, the
environment, the results of foreign calls) is carried by the labels, so a run is a list of labels
and can be evaluated.

These rules carry the inductions of a development:

* `run_preserves`, `Reachable.induct` and, for steps under a condition, `run_preserves_of_meets` and
  `run_preserves_of_forall`: what one step keeps, every run keeps;
* `run_iff_meets`: what a step keeps exactly when it meets a condition on its label and the state
  before it, a run keeps exactly when all its steps meet it; and `run_forall_iff_meets`, for what
  holds in all states of a run;
* `run_origin`: what a state of a run satisfies, its start or some step of the run accounts for;
* `run_once`: what a step brings about for good and finds absent is brought about once;
* `run_lockstep`: two runs whose labels are related stay in related states, which is how a
  property of two runs is proved.
-/

namespace StateMachine

/-- A machine: its initial states and its partial labelled step. -/
structure Machine (σ ℓ : Type*) where
  init : σ → Prop
  step : σ → ℓ → Option σ

variable {σ ℓ : Type*}

/-- The state after a list of labels, if every one of them is enabled in its turn. -/
def Machine.run (M : Machine σ ℓ) : σ → List ℓ → Option σ
  | s, [] => some s
  | s, l :: ls => (M.step s l).bind fun t => M.run t ls

/-- The states some run from an initial state ends in. -/
def Machine.Reachable (M : Machine σ ℓ) (t : σ) : Prop :=
  ∃ s ls, M.init s ∧ M.run s ls = some t

/-- Every step of the run of `ls` from `s` meets the condition `G` on its state and its label. -/
def Machine.Meets (M : Machine σ ℓ) (G : σ → ℓ → Prop) : σ → List ℓ → Prop
  | _, [] => True
  | s, l :: ls => G s l ∧ ∀ t, M.step s l = some t → M.Meets G t ls

namespace Machine

variable {M : Machine σ ℓ} {s t u : σ} {l : ℓ} {ls ms : List ℓ}

@[simp] theorem run_nil (M : Machine σ ℓ) (s : σ) : M.run s [] = some s := rfl

theorem run_cons (M : Machine σ ℓ) (s : σ) (l : ℓ) (ls : List ℓ) :
    M.run s (l :: ls) = (M.step s l).bind fun t => M.run t ls := rfl

theorem run_cons_eq_some : M.run s (l :: ls) = some t ↔
    ∃ u, M.step s l = some u ∧ M.run u ls = some t := by
  rw [run_cons, Option.bind_eq_some_iff]

theorem run_append (M : Machine σ ℓ) (s : σ) (ls ms : List ℓ) :
    M.run s (ls ++ ms) = (M.run s ls).bind fun t => M.run t ms := by
  induction ls generalizing s with
  | nil => rfl
  | cons l ls ih =>
    rw [List.cons_append, run_cons, run_cons, Option.bind_assoc]
    congr 1
    funext t
    exact ih t

theorem run_append_eq_some : M.run s (ls ++ ms) = some t ↔
    ∃ u, M.run s ls = some u ∧ M.run u ms = some t := by
  rw [run_append, Option.bind_eq_some_iff]

theorem run_singleton : M.run s [l] = some t ↔ M.step s l = some t := by
  rw [run_cons_eq_some]
  constructor
  · rintro ⟨u, hu, ht⟩
    cases ht
    exact hu
  · exact fun h => ⟨t, h, rfl⟩

/-! ### Reachable states -/

theorem Reachable.of_init (h : M.init s) : M.Reachable s := ⟨s, [], h, rfl⟩

theorem Reachable.run (h : M.Reachable s) (hr : M.run s ls = some t) : M.Reachable t := by
  obtain ⟨s₀, ms, h0, hs⟩ := h
  exact ⟨s₀, ms ++ ls, h0, run_append_eq_some.2 ⟨s, hs, hr⟩⟩

theorem Reachable.step (h : M.Reachable s) (hl : M.step s l = some t) : M.Reachable t :=
  h.run (run_singleton.2 hl)

/-- What every step that meets a condition preserves, every run that meets it preserves. -/
theorem run_preserves_of_meets {I : σ → Prop} {G : σ → ℓ → Prop}
    (hI : ∀ s l t, I s → G s l → M.step s l = some t → I t) (hs : I s) (hG : M.Meets G s ls)
    (hr : M.run s ls = some t) : I t := by
  induction ls generalizing s with
  | nil =>
    cases hr
    exact hs
  | cons l ls ih =>
    obtain ⟨u, hu, ht⟩ := run_cons_eq_some.1 hr
    exact ih (hI s l u hs hG.1 hu) (hG.2 u hu) ht

theorem meets_of_forall {G : σ → ℓ → Prop} (h : ∀ s l, G s l) (s : σ) (ls : List ℓ) :
    M.Meets G s ls := by
  induction ls generalizing s with
  | nil => trivial
  | cons l ls ih => exact ⟨h s l, fun t _ => ih t⟩

theorem meets_of_forall_mem {G : ℓ → Prop} (h : ∀ l ∈ ls, G l) (s : σ) :
    M.Meets (fun _ => G) s ls := by
  induction ls generalizing s with
  | nil => trivial
  | cons l ls ih =>
    exact ⟨h l List.mem_cons_self, fun t _ => ih (fun l hl => h l (List.mem_cons_of_mem _ hl)) t⟩

/-- What every step with a label of a kind preserves, every run of such labels preserves. -/
theorem run_preserves_of_forall {I : σ → Prop} {G : ℓ → Prop}
    (hI : ∀ s l t, I s → G l → M.step s l = some t → I t) (hs : I s) (hG : ∀ l ∈ ls, G l)
    (hr : M.run s ls = some t) : I t :=
  run_preserves_of_meets hI hs (meets_of_forall_mem hG s) hr

/-- What every step preserves, every run preserves. -/
theorem run_preserves {I : σ → Prop} (hI : ∀ s l t, I s → M.step s l = some t → I t)
    (hs : I s) (hr : M.run s ls = some t) : I t :=
  run_preserves_of_forall (G := fun _ => True) (fun s l t h _ => hI s l t h) hs
    (fun _ _ => trivial) hr

/-- An inductive invariant holds in every reachable state. -/
theorem Reachable.induct {I : σ → Prop} (h0 : ∀ s, M.init s → I s)
    (hI : ∀ s l t, I s → M.step s l = some t → I t) (h : M.Reachable t) : I t := by
  obtain ⟨s, ls, hs, hr⟩ := h
  exact run_preserves hI (h0 s hs) hr

/-- Among steps that meet `H`, and under an invariant, a property of a state that a step either
finds there or causes goes back to the start of a run or to one of its steps. -/
theorem run_origin_of_meets {K P : σ → Prop} {H C : σ → ℓ → Prop}
    (hK : ∀ s l t, K s → H s l → M.step s l = some t → K t)
    (hP : ∀ s l t, K s → H s l → M.step s l = some t → P t → P s ∨ C s l) (hs : K s)
    (hH : M.Meets H s ls) (hr : M.run s ls = some t) (ht : P t) :
    P s ∨ ∃ pre l post u, ls = pre ++ l :: post ∧ M.run s pre = some u ∧ C u l := by
  induction ls generalizing s with
  | nil =>
    cases hr
    exact .inl ht
  | cons l ls ih =>
    obtain ⟨u, hu, hur⟩ := run_cons_eq_some.1 hr
    rcases ih (hK s l u hs hH.1 hu) (hH.2 u hu) hur with hPu | ⟨pre, l', post, v, rfl, hv, hC⟩
    · refine (hP s l u hs hH.1 hu hPu).imp_right fun hC => ⟨[], l, ls, s, rfl, rfl, hC⟩
    · exact .inr ⟨l :: pre, l', post, v, rfl, run_cons_eq_some.2 ⟨u, hu, hv⟩, hC⟩

/-- The same rule for all steps. -/
theorem run_origin_of_invariant {K P : σ → Prop} {C : σ → ℓ → Prop}
    (hK : ∀ s l t, K s → M.step s l = some t → K t)
    (hP : ∀ s l t, K s → M.step s l = some t → P t → P s ∨ C s l) (hs : K s)
    (hr : M.run s ls = some t) (ht : P t) :
    P s ∨ ∃ pre l post u, ls = pre ++ l :: post ∧ M.run s pre = some u ∧ C u l :=
  run_origin_of_meets (H := fun _ _ => True) (fun s l t h _ => hK s l t h)
    (fun s l t h _ => hP s l t h) hs (meets_of_forall (fun _ _ => trivial) s ls) hr ht

/-- The same rule without an invariant. -/
theorem run_origin {P : σ → Prop} {C : σ → ℓ → Prop}
    (hP : ∀ s l t, M.step s l = some t → P t → P s ∨ C s l) (hr : M.run s ls = some t)
    (ht : P t) : P s ∨ ∃ pre l post u, ls = pre ++ l :: post ∧ M.run s pre = some u ∧ C u l :=
  run_origin_of_invariant (K := fun _ => True) (fun _ _ _ _ _ => trivial)
    (fun s l t _ => hP s l t) trivial hr ht

/-- A step that needs a property to be absent, and brings it about for good, is taken once. -/
theorem run_once {K P : σ → Prop} {W : σ → ℓ → Prop} (hK : ∀ s l t, K s → M.step s l = some t → K t)
    (hkeep : ∀ s l t, K s → P s → M.step s l = some t → P t)
    (hbefore : ∀ s l, K s → W s l → ¬ P s)
    (hafter : ∀ s l t, W s l → M.step s l = some t → P t)
    (hs : K s) (hW : W s l) (hl : M.step s l = some t) (hr : M.run t ls = some u) (l' : ℓ) :
    ¬ W u l' := by
  have hinv : K u ∧ P u := by
    apply run_preserves (I := fun s => K s ∧ P s) _ ⟨hK s l t hs hl, hafter s l t hW hl⟩ hr
    intro s l t h hl
    exact ⟨hK s l t h.1 hl, hkeep s l t h.1 h.2 hl⟩
  exact fun hW' => hbefore u l' hinv.1 hW' hinv.2

/-! ### Runs under a condition -/

theorem meets_cons {G : σ → ℓ → Prop} : M.Meets G s (l :: ls) ↔
    G s l ∧ ∀ t, M.step s l = some t → M.Meets G t ls := Iff.rfl

theorem Meets.cons {G : σ → ℓ → Prop} (hG : G s l) (hl : M.step s l = some t)
    (h : M.Meets G t ls) : M.Meets G s (l :: ls) := by
  refine ⟨hG, fun u hu => ?_⟩
  rw [← Option.some.inj (hl.symm.trans hu)]
  exact h

theorem Meets.mono {G H : σ → ℓ → Prop} (hGH : ∀ s l, G s l → H s l) (h : M.Meets G s ls) :
    M.Meets H s ls := by
  induction ls generalizing s with
  | nil => trivial
  | cons l ls ih => exact ⟨hGH s l h.1, fun t ht => ih (h.2 t ht)⟩

theorem Meets.append {G : σ → ℓ → Prop} (h : M.Meets G s ls) (hr : M.run s ls = some t)
    (h' : M.Meets G t ms) : M.Meets G s (ls ++ ms) := by
  induction ls generalizing s with
  | nil =>
    cases hr
    exact h'
  | cons l ls ih =>
    obtain ⟨u, hu, ht⟩ := run_cons_eq_some.1 hr
    exact .cons h.1 hu (ih (h.2 u hu) ht)

theorem Meets.left {G : σ → ℓ → Prop} (h : M.Meets G s (ls ++ ms)) : M.Meets G s ls := by
  induction ls generalizing s with
  | nil => trivial
  | cons l ls ih => exact ⟨h.1, fun t ht => ih (h.2 t ht)⟩

theorem Meets.right {G : σ → ℓ → Prop} (h : M.Meets G s (ls ++ ms)) (hr : M.run s ls = some t) :
    M.Meets G t ms := by
  induction ls generalizing s with
  | nil =>
    cases hr
    exact h
  | cons l ls ih =>
    obtain ⟨u, hu, ht⟩ := run_cons_eq_some.1 hr
    exact ih (h.2 u hu) ht

theorem Meets.and {G H : σ → ℓ → Prop} (hG : M.Meets G s ls) (hH : M.Meets H s ls) :
    M.Meets (fun s l => G s l ∧ H s l) s ls := by
  induction ls generalizing s with
  | nil => trivial
  | cons l ls ih => exact ⟨⟨hG.1, hH.1⟩, fun t ht => ih (hG.2 t ht) (hH.2 t ht)⟩

/-- A decidable condition can be checked along a run. -/
instance Meets.decidable (M : Machine σ ℓ) (G : σ → ℓ → Prop) [∀ s l, Decidable (G s l)] :
    ∀ s ls, Decidable (M.Meets G s ls)
  | _, [] => .isTrue trivial
  | s, l :: ls =>
      have (t : σ) : Decidable (M.Meets G t ls) := Meets.decidable M G t ls
      inferInstanceAs (Decidable (G s l ∧ ∀ t ∈ M.step s l, M.Meets G t ls))

/-- Among steps that meet `H`, and under the invariant `K`, let a step end in `I` exactly if it
starts in `I` and meets `G`. Then a run of such steps ends in `I` exactly if it starts in `I` and
all its steps meet `G`. -/
theorem run_iff_meets_of_meets {I K : σ → Prop} {G H : σ → ℓ → Prop}
    (hK : ∀ s l t, K s → H s l → M.step s l = some t → K t)
    (hI : ∀ s l t, K s → H s l → M.step s l = some t → (I t ↔ I s ∧ G s l)) (hs : K s)
    (hH : M.Meets H s ls) (hr : M.run s ls = some t) : I t ↔ I s ∧ M.Meets G s ls := by
  induction ls generalizing s with
  | nil =>
    cases hr
    simp [Meets]
  | cons l ls ih =>
    obtain ⟨u, hu, ht⟩ := run_cons_eq_some.1 hr
    rw [ih (hK s l u hs hH.1 hu) (hH.2 u hu) ht, hI s l u hs hH.1 hu, meets_cons]
    simp [hu, and_assoc]

/-- The same rule for all steps. -/
theorem run_iff_meets {I K : σ → Prop} {G : σ → ℓ → Prop}
    (hK : ∀ s l t, K s → M.step s l = some t → K t)
    (hI : ∀ s l t, K s → M.step s l = some t → (I t ↔ I s ∧ G s l)) (hs : K s)
    (hr : M.run s ls = some t) : I t ↔ I s ∧ M.Meets G s ls :=
  run_iff_meets_of_meets (H := fun _ _ => True) (fun s l t h _ => hK s l t h)
    (fun s l t h _ => hI s l t h) hs (meets_of_forall (fun _ _ => trivial) s ls) hr

/-- Among steps that meet `H`, and under the invariant `K`, let a step from a state in `I` end in
`I` exactly if it meets `G`. Then all states of a run of such steps are in `I` exactly if its first
one is and all its steps meet `G`. -/
theorem run_forall_iff_meets {I K : σ → Prop} {G H : σ → ℓ → Prop}
    (hK : ∀ s l t, K s → H s l → M.step s l = some t → K t)
    (hI : ∀ s l t, K s → H s l → I s → M.step s l = some t → (I t ↔ G s l)) (hs : K s)
    (hH : M.Meets H s ls) (hr : M.run s ls = some t) :
    (∀ pre u, pre <+: ls → M.run s pre = some u → I u) ↔ I s ∧ M.Meets G s ls := by
  induction ls generalizing s with
  | nil =>
    constructor
    · exact fun h => ⟨h [] s List.prefix_rfl rfl, trivial⟩
    · rintro ⟨hIs, -⟩ pre u hpre hu
      obtain rfl := List.prefix_nil.1 hpre
      cases hu
      exact hIs
  | cons l ls ih =>
    obtain ⟨v, hv, hvt⟩ := run_cons_eq_some.1 hr
    have hrest := ih (hK s l v hs hH.1 hv) (hH.2 v hv) hvt
    constructor
    · intro h
      have hIs := h [] s List.nil_prefix rfl
      have hall : ∀ pre u, pre <+: ls → M.run v pre = some u → I u := fun pre u hpre hu =>
        h (l :: pre) u ((List.prefix_cons_inj l).2 hpre) (run_cons_eq_some.2 ⟨v, hv, hu⟩)
      obtain ⟨hIv, hmeets⟩ := hrest.1 hall
      exact ⟨hIs, .cons ((hI s l v hs hH.1 hIs hv).1 hIv) hv hmeets⟩
    · rintro ⟨hIs, hG, hmeets⟩ pre u hpre hu
      cases pre with
      | nil =>
        cases hu
        exact hIs
      | cons l' pre =>
        obtain ⟨rfl, hpre'⟩ := List.cons_prefix_cons.1 hpre
        obtain ⟨v', hv', hu⟩ := run_cons_eq_some.1 hu
        obtain rfl := Option.some.inj (hv.symm.trans hv')
        exact hrest.2 ⟨(hI s l' v hs hH.1 hIs hv).2 hG, hmeets v hv⟩ pre u hpre' hu

/-! ### Two runs -/

/-- Runs of related labels from related states stay related, label by label. -/
theorem run_lockstep {R : σ → σ → Prop} {Q : ℓ → ℓ → Prop}
    (hstep : ∀ s s' l l', R s s' → Q l l' → Option.Rel R (M.step s l) (M.step s' l'))
    {s' : σ} {ls' : List ℓ} (hs : R s s') (hls : List.Forall₂ Q ls ls') :
    Option.Rel R (M.run s ls) (M.run s' ls') := by
  induction hls generalizing s s' with
  | nil => exact Option.Rel.some hs
  | @cons l l' _ _ hl _ ih =>
    rw [run_cons, run_cons]
    have h := hstep s s' l l' hs hl
    generalize M.step s l = a, M.step s' l' = b at h
    cases h with
    | some hu => exact ih hu
    | none => exact Option.Rel.none

end Machine

end StateMachine
