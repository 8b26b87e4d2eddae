import P2pMpc.ErrorAtomicity
import P2pMpc.PhaseMonotone

/-!
# Where a completed signature comes from

An orchestrator reaches `SigningCompleted` with the signature that the protocol run of its one
signing task returned. A signing it only observes has no task, and so is never left: no message
changes the state of an orchestrator that is in `Signing`.
-/

namespace P2pMpc

open StateMachine MPCOrchestrator

variable {X : Platform}

namespace Config

variable {c c' : Config X} {l : Label X} {ls : List (Label X)} {j : ℕ} {sig : String}

/-! ### Orchestrators with nothing left to do -/

/-- No message is let in, no call is pending, and no task has its completion before it. -/
structure Inactive (c : Config X) : Prop where
  closed : c.inst.orch.state.Closed
  pending : c.pending = none
  completed : ∀ t ∈ c.inst.tasks, t.uncompleted = false

/-- An orchestrator that is inactive stays so, in the state it is in. -/
theorem Inactive.step (h : c.Inactive) (hl : c.step l = some c') :
    c'.Inactive ∧ c'.inst.orch.state = c.inst.orch.state := by
  cases l with
  | call chan sender msg =>
    obtain ⟨-, rfl⟩ := step_call_eq_some.1 hl
    rcases c.call_cases h.pending chan sender msg with ⟨-, he⟩ | ⟨_, _, _, _, _, _, -, hc, -⟩ |
        ⟨_, _, _, _, _, _, -, hc, -⟩ | ⟨_, _, _, _, _, _, -, hc, -⟩
    · rw [he]
      exact ⟨h, rfl⟩
    · exact absurd hc.2.1 h.closed.1
    · exact absurd hc.2.1 (by simp [h.closed.2.1])
    · exact absurd hc.2.1 (by simp [h.closed.2.2])
  | resume chan => simp [Config.step, h.pending] at hl
  | finish i r =>
    obtain ⟨t, t', ht, hf, rfl⟩ := step_finish_eq_some.1 hl
    have hu := (Task.finish_uncompleted hf).1
    rw [h.completed t (List.mem_of_getElem? ht)] at hu
    cases hu
  | advance i =>
    obtain ⟨t, t', o, ht, ha, rfl⟩ := step_advance_eq_some.1 hl
    rcases Task.advance_cases ha with ⟨hu, -, -⟩ | ⟨hstate, hsame⟩
    · rw [h.completed t (List.mem_of_getElem? ht)] at hu
      cases hu
    · refine ⟨⟨?_, h.pending, ?_⟩, hstate⟩
      · show o.state.Closed
        rw [hstate]
        exact h.closed
      · intro u hu
        rcases List.mem_or_eq_of_mem_set hu with hmem | rfl
        · exact h.completed u hmem
        · rw [hsame]
          exact h.completed t (List.mem_of_getElem? ht)

theorem Inactive.run (h : c.Inactive) (hr : (orchestratorMachine X).run c ls = some c') :
    c'.Inactive ∧ c'.inst.orch.state = c.inst.orch.state := by
  refine Machine.run_preserves
    (I := fun d => d.Inactive ∧ d.inst.orch.state = c.inst.orch.state) ?_ ⟨h, rfl⟩ hr
  rintro d l d' ⟨hd, hsame⟩ hl
  obtain ⟨hd', hsame'⟩ := hd.step hl
  exact ⟨hd', hsame'.trans hsame⟩

/-- When the signing task is done, nothing is left to do. -/
theorem Shaped.inactive_of_done (h : c.Shaped) {p : SigningParty X} {s : List PartyIndex}
    {m : List UInt8} {ts : UInt64} (ht : c.inst.tasks[j]? = some (.signing p s m ts .done)) :
    c.Inactive := by
  obtain ⟨⟨⟨st, ps, pa, lp, tx₁, tx₂, tx₃, a, k⟩, tasks⟩, pend⟩ := c
  simp only [Config.Shaped] at h ht
  cases h with
  | signingActive _ _ _ _ _ _ _ _ _ _ _ _ _ _ _ pc hpc =>
    rcases j with _ | _ | _ | j <;> cases ht
    rcases hpc with hpc | ⟨r, hpc⟩ <;> cases hpc
  | signingCompleted | signingFailed =>
    refine ⟨⟨by rintro ⟨⟩, rfl, rfl⟩, rfl, fun t hmem => ?_⟩
    simp only [List.mem_cons, List.not_mem_nil, or_false] at hmem
    rcases hmem with rfl | rfl | rfl <;> rfl
  | _ => rcases j with _ | _ | j <;> cases ht

/-- A signing without a task of its own leaves nothing to do. -/
theorem Shaped.inactive_of_observed (h : c.Shaped) (hp : c.pending = none) {q : X.PeerId}
    {e m : List UInt8} {s : List PartyIndex} (hs : c.inst.orch.state = .signing q e m s)
    (hno : ∀ t ∈ c.inst.tasks, t.phase ≠ .signing) : c.Inactive := by
  obtain ⟨⟨⟨st, ps, pa, lp, tx₁, tx₂, tx₃, a, k⟩, tasks⟩, pend⟩ := c
  simp only [Config.Shaped] at h hs hp hno
  subst hs hp
  refine ⟨⟨by rintro ⟨⟩, rfl, rfl⟩, rfl, fun t hmem => ?_⟩
  cases h with
  | signingStuck => cases hmem
  | signingEntered _ _ _ _ _ _ _ _ _ _ _ _ _ _ _ hw =>
    simp only [List.mem_cons, List.not_mem_nil, or_false] at hmem
    rcases hmem with rfl | rfl
    · rfl
    · cases hw <;> rfl
  | signingActive =>
    exact absurd rfl (hno _ (List.mem_cons_of_mem _ (List.mem_cons_of_mem _ List.mem_cons_self)))

/-- No two tasks are of one phase. -/
theorem Shaped.eq_of_phase (h : c.Shaped) {i : ℕ} {t u : Task X} (ht : c.inst.tasks[i]? = some t)
    (hu : c.inst.tasks[j]? = some u) (hφ : t.phase = u.phase) : i = j := by
  have hnodup : (c.inst.tasks.map Task.phase).Nodup := by
    obtain ⟨⟨⟨st, ps, pa, lp, tx₁, tx₂, tx₃, a, k⟩, tasks⟩, pend⟩ := c
    simp only [Config.Shaped] at h ⊢
    cases h <;> simp [Task.phase]
  have hi : i < (c.inst.tasks.map Task.phase).length := by
    rw [List.length_map]
    exact (List.getElem?_eq_some_iff.1 ht).1
  refine (List.getElem?_inj hi hnodup).1 ?_
  rw [List.getElem?_map, List.getElem?_map, ht, hu, Option.map_some, Option.map_some, hφ]

/-- Before a signing starts there is no signing task. -/
theorem Shaped.no_signing_of_ready (h : c.Shaped)
    (hr : readyForSigning c.inst.orch.state = true) : ∀ t ∈ c.inst.tasks, t.phase ≠ .signing := by
  obtain ⟨⟨⟨st, ps, pa, lp, tx₁, tx₂, tx₃, a, k⟩, tasks⟩, pend⟩ := c
  simp only [Config.Shaped] at h hr ⊢
  cases h <;> simp only [readyForSigning, Bool.false_eq_true] at hr <;>
    simp [Task.phase]

/-! ### The signature of the signing task -/

/-- The protocol run of the signing task `j` has returned the signature, or the task has completed
with it. -/
def HasSignature (j : ℕ) (sig : String) (c : Config X) : Prop :=
  ∃ p s m ts,
    (∃ σ, c.inst.tasks[j]? = some (.signing p s m ts (.returned (.ok σ))) ∧
      X.debugSignature σ = sig) ∨
    (c.inst.tasks[j]? = some (.signing p s m ts .done) ∧
      c.inst.orch.state = .signingCompleted sig)

/-- The step has the protocol run of the task `j` return the signature. -/
def ReturnsSignature (j : ℕ) (sig : String) (l : Label X) : Prop :=
  ∃ σ, l = .finish j (.signing (.ok σ)) ∧ X.debugSignature σ = sig

/-- A task after a step was there before, or is new, or has just moved. -/
theorem step_task (hl : c.step l = some c') {t' : Task X} (ht' : c'.inst.tasks[j]? = some t') :
    c.inst.tasks[j]? = some t' ∨ t'.spawned = t' ∨
    ∃ t, c.inst.tasks[j]? = some t ∧ ((∃ r, l = .finish j r ∧ t.finish r = some t') ∨
      (l = .advance j ∧
        t.advance c.stateFree c.auxFree c.inst.orch = some (c'.inst.orch, t'))) := by
  have hmoved : ∀ i t u, c.inst.tasks[i]? = some t → c'.inst.tasks = c.inst.tasks.set i u →
      (j = i ∧ u = t') ∨ c.inst.tasks[j]? = some t' := by
    intro i t u ht he
    rw [he] at ht'
    by_cases hij : i = j
    · subst hij
      rw [List.getElem?_set_self (List.getElem?_eq_some_iff.1 ht).1] at ht'
      exact .inl ⟨rfl, Option.some.inj ht'⟩
    · rw [List.getElem?_set_ne hij] at ht'
      exact .inr ht'
  have hnew : ∀ t, t.spawned = t → c'.inst.tasks = c.inst.tasks ++ [t] →
      c.inst.tasks[j]? = some t' ∨ t'.spawned = t' := by
    intro t ht he
    rw [he, List.getElem?_append] at ht'
    split_ifs at ht' with hj
    · exact .inl ht'
    · rw [List.mem_singleton.1 (List.mem_of_getElem? ht')]
      exact .inr ht
  cases l with
  | finish i r =>
    obtain ⟨t, u, ht, hf, rfl⟩ := step_finish_eq_some.1 hl
    rcases hmoved i t u ht rfl with ⟨rfl, rfl⟩ | hold
    · exact .inr (.inr ⟨t, ht, .inl ⟨r, rfl, hf⟩⟩)
    · exact .inl hold
  | advance i =>
    obtain ⟨t, u, o, ht, ha, rfl⟩ := step_advance_eq_some.1 hl
    rcases hmoved i t u ht rfl with ⟨rfl, rfl⟩ | hold
    · exact .inr (.inr ⟨t, ht, .inr ⟨rfl, ha⟩⟩)
    · exact .inl hold
  | call chan sender msg =>
    obtain ⟨hp, rfl⟩ := step_call_eq_some.1 hl
    rcases c.call_cases hp chan sender msg with ⟨-, he⟩ | ⟨_, _, _, _, _, _, -, -, he⟩ |
        ⟨_, _, _, _, _, _, -, -, he⟩ | ⟨_, _, _, _, _, _, -, -, he⟩
    · exact .inl (by rwa [he] at ht')
    · exact (hnew _ rfl (by rw [he])).imp_right .inl
    · exact .inl (by rwa [he] at ht')
    · exact .inl (by rwa [he] at ht')
  | resume chan =>
    rcases resume_cases hl with ⟨_, -, -, rfl⟩ | ⟨_, _, _, _, _, -, -, rfl⟩ |
        ⟨_, _, _, _, _, -, -, rfl⟩ | ⟨_, _, _, _, _, _, -, -, rfl⟩
    · exact .inl ht'
    · exact .inl ht'
    · exact (hnew _ rfl rfl).imp_right .inl
    · exact (hnew _ rfl rfl).imp_right .inl

/-- A step that ends with the signature found it there, or has the protocol run return it. -/
theorem step_hasSignature (h : c.Shaped) (hl : c.step l = some c') (hs : c'.HasSignature j sig) :
    c.HasSignature j sig ∨ ReturnsSignature j sig l := by
  obtain ⟨p, s, m, ts, ⟨σ, ht', hσ⟩ | ⟨ht', hstate⟩⟩ := hs
  · rcases step_task hl ht' with hold | hnew | ⟨t, ht, ⟨r, rfl, hf⟩ | ⟨-, ha⟩⟩
    · exact .inl ⟨p, s, m, ts, .inl ⟨σ, hold, hσ⟩⟩
    · cases hnew
    · right
      unfold Task.finish at hf
      split at hf <;> cases hf
      exact ⟨σ, rfl, hσ⟩
    · generalize c'.inst.orch = o at ha
      unfold Task.advance at ha
      split at ha <;> (try split_ifs at ha) <;> cases ha
  · rcases step_task hl ht' with hold | hnew | ⟨t, ht, ⟨r, rfl, hf⟩ | ⟨-, ha⟩⟩
    · -- the orchestrator was inactive, so the state was the same
      have hsame := ((h.inactive_of_done hold).step hl).2
      exact .inl ⟨p, s, m, ts, .inr ⟨hold, hsame ▸ hstate⟩⟩
    · cases hnew
    · unfold Task.finish at hf
      split at hf <;> cases hf
    · left
      generalize c'.inst.orch = o at ha hstate
      unfold Task.advance at ha
      split at ha <;> (try split_ifs at ha) <;> cases ha
      · cases hstate
        exact ⟨p, s, m, ts, .inl ⟨_, ht, rfl⟩⟩
      · cases hstate

/-- A signature that a run ends with was there at its start, or was returned in it. -/
theorem run_hasSignature (h : c.Shaped) (hr : (orchestratorMachine X).run c ls = some c')
    (hs : c'.HasSignature j sig) :
    c.HasSignature j sig ∨ ∃ l ∈ ls, ReturnsSignature j sig l := by
  rcases Machine.run_origin_of_invariant (K := Shaped) (P := HasSignature j sig)
    (C := fun _ l => ReturnsSignature j sig l) (fun _ _ _ hs hl => hs.step hl)
    (fun _ _ _ hs hl => step_hasSignature hs hl) h hr hs with hold | ⟨pre, l, post, _, rfl, -, hl⟩
  · exact .inl hold
  · exact .inr ⟨l, by simp, hl⟩

/-- In `SigningCompleted` the signing task is done. -/
theorem Shaped.of_signingCompleted (h : c.Shaped)
    (hs : c.inst.orch.state = .signingCompleted sig) : ∃ j : ℕ, c.HasSignature j sig := by
  obtain ⟨⟨⟨st, ps, pa, lp, tx₁, tx₂, tx₃, a, k⟩, tasks⟩, pend⟩ := c
  simp only [Config.Shaped] at h hs
  subst hs
  cases h with
  | signingCompleted => exact ⟨2, _, _, _, _, .inr ⟨rfl, rfl⟩⟩

end Config

end P2pMpc
