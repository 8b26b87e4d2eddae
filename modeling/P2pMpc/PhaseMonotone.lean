import P2pMpc.KeyShareWindow

/-!
# The order of the phases

The spawned tasks write the protocol state without looking whether the phase they belong to is
still the current one. That this never sets a later phase back follows from the shapes: while a
task has its completion write before it, the state is the one its phase entered, no handler call is
pending, no message is accepted, and every other task is done (`Shaped.of_uncompleted`). So the
state a task replaces is the state it was spawned under, execution id included, and the rank of the
state never decreases.
-/

namespace P2pMpc

open StateMachine MPCOrchestrator

variable {X : Platform}

/-- The position of a state in the order of the phases. -/
def ProtocolState.rank : ProtocolState X → ℕ
  | .idle => 0
  | .auxGeneration _ _ => 1
  | .auxCompleted => 2
  | .keygen _ _ _ => 3
  | .keygenCompleted _ => 4
  | .signing _ _ _ _ => 5
  | .signingCompleted _ => 6
  | .failed _ _ => 7

/-- The state is that of the phase in progress, under the execution id. -/
def ProtocolState.InProgress (φ : Phase) (executionId : List UInt8) : ProtocolState X → Prop
  | .auxGeneration _ e => φ = .aux ∧ e = executionId
  | .keygen _ e _ => φ = .keygen ∧ e = executionId
  | .signing _ e _ _ => φ = .signing ∧ e = executionId
  | _ => False

/-- The rank of the state of a phase in progress. -/
def Phase.rank : Phase → ℕ
  | .aux => 1
  | .keygen => 3
  | .signing => 5

def Task.phase : Task X → Phase
  | .aux _ _ _ _ => .aux
  | .keygen _ _ _ _ _ => .keygen
  | .signing _ _ _ _ _ => .signing

/-- The task has its write of the final state of its phase before it. -/
def Task.uncompleted : Task X → Bool
  | .aux _ _ _ .done => false
  | .aux _ _ _ _ => true
  | .keygen _ _ _ _ .running => true
  | .keygen _ _ _ _ (.returned _) => true
  | .keygen _ _ _ _ _ => false
  | .signing _ _ _ _ .done => false
  | .signing _ _ _ _ _ => true

/-- The step of the task `i` with which it completes its phase. -/
def Config.CompletionWrite (c : Config X) (i : ℕ) (c' : Config X) : Prop :=
  c.step (.advance i) = some c' ∧ ∃ t t', c.inst.tasks[i]? = some t ∧ t.uncompleted = true ∧
    c'.inst.tasks[i]? = some t' ∧ t'.uncompleted = false

theorem ProtocolState.InProgress.rank_eq {st : ProtocolState X} {φ : Phase} {e : List UInt8}
    (h : st.InProgress φ e) : st.rank = φ.rank := by
  cases st <;> first | exact h.elim | (obtain ⟨rfl, -⟩ := h; rfl)

theorem ProtocolState.InProgress.not_ready {st : ProtocolState X} {φ : Phase} {e : List UInt8}
    (h : st.InProgress φ e) :
    st ≠ .idle ∧ readyForKeygen st = false ∧ readyForSigning st = false := by
  cases st <;> first | exact h.elim | exact ⟨by rintro ⟨⟩, rfl, rfl⟩

theorem Task.spawned_uncompleted (t : Task X) : t.spawned.uncompleted = true := by
  cases t <;> rfl

/-- A lock acquisition of a task completes its phase with a state of a higher rank, or leaves the
state as it is. -/
theorem Task.advance_cases {stateFree auxFree : Bool} {o o' : MPCOrchestrator X} {t t' : Task X}
    (h : t.advance stateFree auxFree o = some (o', t')) :
    (t.uncompleted = true ∧ t'.uncompleted = false ∧ t.phase.rank < o'.state.rank) ∨
      (o'.state = o.state ∧ t'.uncompleted = t.uncompleted) := by
  unfold Task.advance at h
  split at h <;> (try split_ifs at h) <;> cases h <;>
    first
    | exact .inr ⟨rfl, rfl⟩
    | exact .inl ⟨rfl, rfl, by simp [Task.phase, Phase.rank, ProtocolState.rank]⟩

theorem Task.finish_uncompleted {r : Outcome X} {t t' : Task X} (h : t.finish r = some t') :
    t.uncompleted = true ∧ t'.uncompleted = true := by
  unfold Task.finish at h
  split at h <;> cases h <;> exact ⟨rfl, rfl⟩

namespace Config

variable {c c' : Config X}

/-- While a task has its completion before it, its phase is in progress, no call is pending, and
the other tasks have nothing left to do. -/
theorem Shaped.of_uncompleted (h : c.Shaped) {i : ℕ} {t : Task X} (ht : c.inst.tasks[i]? = some t)
    (hu : t.uncompleted = true) : (∃ e, c.inst.orch.state.InProgress t.phase e) ∧
      c.pending = none ∧ ∀ j t', c.inst.tasks[j]? = some t' → j ≠ i →
        ∀ stateFree auxFree o, t'.advance stateFree auxFree o = none := by
  obtain ⟨⟨⟨st, ps, pa, lp, tx₁, tx₂, tx₃, a, k⟩, tasks⟩, pend⟩ := c
  simp only [Config.Shaped] at h ht ⊢
  -- only the last task of a shape has its completion before it
  cases h with
  | idle | keygenStuck | keygenDoomed | signingStuck | signingDoomed => cases ht
  | auxActive q e | auxStored q e =>
    rcases i with _ | i
    · cases ht
      refine ⟨⟨e, rfl, rfl⟩, rfl, fun j t' hj hji => ?_⟩
      rcases j with _ | j
      · exact absurd rfl hji
      · cases hj
    · cases ht
  | auxCompleted | auxFailed | keygenEntered =>
    rcases i with _ | i <;> cases ht
    cases hu
  | keygenActive q e =>
    rcases i with _ | _ | i
    · cases ht
      cases hu
    · cases ht
      refine ⟨⟨e, rfl, rfl⟩, rfl, fun j t' hj hji => ?_⟩
      rcases j with _ | _ | j
      · cases hj
        intros
        rfl
      · exact absurd rfl hji
      · cases hj
    · cases ht
  | keygenFailed => rcases i with _ | _ | i <;> cases ht <;> cases hu
  | keygenCompleted _ _ _ _ _ _ _ _ _ _ hw =>
    rcases i with _ | _ | i <;> cases ht <;> cases hw <;> cases hu
  | signingEntered _ _ _ _ _ _ _ _ _ _ _ _ _ _ _ hw =>
    rcases i with _ | _ | i <;> cases ht <;> cases hw <;> cases hu
  | signingActive q e =>
    rcases i with _ | _ | _ | i
    · cases ht
      cases hu
    · cases ht
      cases hu
    · cases ht
      refine ⟨⟨e, rfl, rfl⟩, rfl, fun j t' hj hji => ?_⟩
      rcases j with _ | _ | _ | j
      · cases hj
        intros
        rfl
      · cases hj
        intros
        rfl
      · exact absurd rfl hji
      · cases hj
    · cases ht
  | signingCompleted | signingFailed =>
    rcases i with _ | _ | _ | i <;> cases ht <;> cases hu

/-! ### What one step does -/

/-- A step that writes the state is a call from a ready state, or completes a task. -/
theorem step_state (h : c.Shaped) {l : Label X} (hl : c.step l = some c') :
    c'.inst.orch.state = c.inst.orch.state ∨
    (c.inst.orch.state.rank < c'.inst.orch.state.rank ∧
      ((∃ chan sender msg, l = .call chan sender msg ∧ c.inst.orch.Enters msg) ∨
        ∃ i, l = .advance i ∧ c.CompletionWrite i c')) := by
  cases l with
  | call chan sender msg =>
    obtain ⟨hp, rfl⟩ := step_call_eq_some.1 hl
    rcases c.call_cases hp chan sender msg with ⟨-, he⟩ |
        ⟨eid, ps, pa, timestamp, i, ts, rfl, hc, he⟩ | ⟨eid, t, n, timestamp, i, ts, rfl, hc, he⟩ |
        ⟨eid, m, s, timestamp, i, ts, rfl, hc, he⟩ <;> rw [he]
    · exact .inl rfl
    · refine .inr ⟨?_, .inl ⟨chan, sender, _, rfl, i, ts, hc⟩⟩
      rw [hc.2.1]
      exact Nat.zero_lt_one
    · refine .inr ⟨?_, .inl ⟨chan, sender, _, rfl, i, ts, hc⟩⟩
      have hr := hc.2.1
      show c.inst.orch.state.rank < 3
      generalize c.inst.orch.state = st at hr
      cases st <;> simp [readyForKeygen] at hr <;> simp [ProtocolState.rank]
    · refine .inr ⟨?_, .inl ⟨chan, sender, _, rfl, i, ts, hc⟩⟩
      have hr := hc.2.1
      show c.inst.orch.state.rank < 5
      generalize c.inst.orch.state = st at hr
      cases st <;> simp [readyForSigning] at hr <;> simp [ProtocolState.rank]
  | resume chan =>
    rcases resume_cases hl with ⟨_, -, -, rfl⟩ | ⟨_, _, _, _, _, -, -, rfl⟩ |
        ⟨_, _, _, _, _, -, -, rfl⟩ | ⟨_, _, _, _, _, _, -, -, rfl⟩ <;> exact .inl rfl
  | finish i r =>
    obtain ⟨_, _, -, -, rfl⟩ := step_finish_eq_some.1 hl
    exact .inl rfl
  | advance i =>
    obtain ⟨t, t', o, ht, ha, rfl⟩ := step_advance_eq_some.1 hl
    rcases Task.advance_cases ha with ⟨hu, hu', hrank⟩ | ⟨hsame, -⟩
    · obtain ⟨⟨e, he⟩, -, -⟩ := h.of_uncompleted ht hu
      have hlen := (List.getElem?_eq_some_iff.1 ht).1
      refine .inr ⟨?_, .inr ⟨i, rfl, hl, t, t', ht, hu, ?_, hu'⟩⟩
      · rw [he.rank_eq]
        exact hrank
      · exact List.getElem?_set_self hlen
    · exact .inl hsame

/-- A step leaves the tasks alone, spawns one, or moves one. -/
theorem step_tasks {l : Label X} (hl : c.step l = some c') :
    c'.inst.tasks = c.inst.tasks ∨
    (∃ t, t.spawned = t ∧ c'.inst.tasks = c.inst.tasks ++ [t]) ∨
    ∃ i t t', c.inst.tasks[i]? = some t ∧ t'.spawned = t.spawned ∧
      (t'.uncompleted = true → t.uncompleted = true) ∧ c'.inst.tasks = c.inst.tasks.set i t' := by
  cases l with
  | call chan sender msg =>
    obtain ⟨hp, rfl⟩ := step_call_eq_some.1 hl
    rcases c.call_cases hp chan sender msg with ⟨-, he⟩ | ⟨_, _, _, _, _, _, -, -, he⟩ |
        ⟨_, _, _, _, _, _, -, -, he⟩ | ⟨_, _, _, _, _, _, -, -, he⟩ <;> rw [he]
    · exact .inl rfl
    · exact .inr (.inl ⟨_, rfl, rfl⟩)
    · exact .inl rfl
    · exact .inl rfl
  | resume chan =>
    rcases resume_cases hl with ⟨_, -, -, rfl⟩ | ⟨_, _, _, _, _, -, -, rfl⟩ |
        ⟨_, _, _, _, _, -, -, rfl⟩ | ⟨_, _, _, _, _, _, -, -, rfl⟩
    · exact .inl rfl
    · exact .inl rfl
    · exact .inr (.inl ⟨_, rfl, rfl⟩)
    · exact .inr (.inl ⟨_, rfl, rfl⟩)
  | finish i r =>
    obtain ⟨t, t', ht, hf, rfl⟩ := step_finish_eq_some.1 hl
    have hu := (Task.finish_uncompleted hf).1
    exact .inr (.inr ⟨i, t, t', ht, Task.finish_spawned hf, fun _ => hu, rfl⟩)
  | advance i =>
    obtain ⟨t, t', o, ht, ha, rfl⟩ := step_advance_eq_some.1 hl
    refine .inr (.inr ⟨i, t, t', ht, (Task.advance_spawned ha).1, fun hu' => ?_, rfl⟩)
    rcases Task.advance_cases ha with ⟨hu, -, -⟩ | ⟨-, hsame⟩
    · exact hu
    · rw [← hsame]
      exact hu'

/-- Every task ever spawned stays in the list, in its place and with its arguments. -/
theorem step_spawned {l : Label X} (hl : c.step l = some c') :
    c.inst.tasks.map Task.spawned <+: c'.inst.tasks.map Task.spawned := by
  rcases step_tasks hl with he | ⟨t, -, he⟩ | ⟨i, t, t', ht, hs, -, he⟩
  · exact he ▸ List.prefix_rfl
  · rw [he, List.map_append]
    exact List.prefix_append _ _
  · have hsame := map_spawned_set ht hs
    exact he ▸ hsame ▸ List.prefix_rfl

/-- A task that a step spawns finds its phase in progress. -/
theorem step_spawns (h : c.Shaped) {l : Label X} (hl : c.step l = some c') {t : Task X}
    (ht : c'.inst.tasks[c.inst.tasks.length]? = some t) :
    ∃ e, c'.inst.orch.state.InProgress t.phase e := by
  have hu : t.uncompleted = true := by
    rcases step_tasks hl with he | ⟨t', ht', he⟩ | ⟨i, _, t', -, -, -, he⟩
    · simp [he] at ht
    · obtain rfl : t' = t := by simpa [he] using ht
      rw [← ht']
      exact t'.spawned_uncompleted
    · simp [he] at ht
  exact ((h.step hl).of_uncompleted ht hu).1

/-- As long as a task has its completion before it, nothing writes the state. -/
theorem step_uncompleted (h : c.Shaped) {l : Label X} (hl : c.step l = some c') {i : ℕ}
    {t t' : Task X} (ht : c.inst.tasks[i]? = some t) (ht' : c'.inst.tasks[i]? = some t')
    (hu' : t'.uncompleted = true) :
    t.uncompleted = true ∧ c'.inst.orch.state = c.inst.orch.state := by
  have hu : t.uncompleted = true := by
    have hlen := (List.getElem?_eq_some_iff.1 ht).1
    rcases step_tasks hl with he | ⟨_, -, he⟩ | ⟨j, t₁, t₂, hj, -, hback, he⟩ <;> rw [he] at ht'
    · rw [← Option.some.inj (ht'.symm.trans ht)]
      exact hu'
    · rw [List.getElem?_append_left hlen] at ht'
      rw [← Option.some.inj (ht'.symm.trans ht)]
      exact hu'
    · by_cases hji : j = i
      · subst hji
        rw [List.getElem?_set_self hlen] at ht'
        rw [← Option.some.inj (hj.symm.trans ht)]
        exact hback (Option.some.inj ht' ▸ hu')
      · rw [List.getElem?_set_ne hji] at ht'
        rw [← Option.some.inj (ht'.symm.trans ht)]
        exact hu'
  refine ⟨hu, ?_⟩
  obtain ⟨⟨e, he⟩, -, hothers⟩ := h.of_uncompleted ht hu
  rcases step_state h hl with hs | ⟨-, ⟨_, _, msg, -, hmsg⟩ | ⟨j, -, hj, t₁, t₂, h1, h1u, h2, h2u⟩⟩
  · exact hs
  · obtain ⟨hidle, hkeygen, hsigning⟩ := he.not_ready
    rcases hmsg.ready with hr | hr | hr
    · exact absurd hr hidle
    · simp [hkeygen] at hr
    · simp [hsigning] at hr
  · by_cases hji : j = i
    · subst hji
      rw [Option.some.inj (h2.symm.trans ht'), hu'] at h2u
      cases h2u
    · obtain ⟨_, _, _, h1', ha, -⟩ := step_advance_eq_some.1 hj
      rw [hothers j _ h1' hji] at ha
      cases ha

/-! ### Runs -/

theorem run_rank {ls : List (Label X)} (h : c.Shaped)
    (hr : (orchestratorMachine X).run c ls = some c') :
    c.inst.orch.state.rank ≤ c'.inst.orch.state.rank := by
  have hinv : c'.Shaped ∧ c.inst.orch.state.rank ≤ c'.inst.orch.state.rank := by
    refine Machine.run_preserves (I := fun d => d.Shaped ∧
      c.inst.orch.state.rank ≤ d.inst.orch.state.rank) ?_ ⟨h, le_rfl⟩ hr
    rintro d l d' ⟨hd, hle⟩ hl
    refine ⟨hd.step hl, hle.trans ?_⟩
    rcases step_state hd hl with he | ⟨hlt, -⟩
    · rw [he]
    · exact hlt.le
  exact hinv.2

theorem run_spawned {ls : List (Label X)} (hr : (orchestratorMachine X).run c ls = some c') :
    c.inst.tasks.map Task.spawned <+: c'.inst.tasks.map Task.spawned := by
  refine Machine.run_preserves (I := fun d =>
    c.inst.tasks.map Task.spawned <+: d.inst.tasks.map Task.spawned) ?_ List.prefix_rfl hr
  intro d l d' hd hl
  exact hd.trans (step_spawned hl)

/-- From its spawning to its completion a task finds the state it was spawned under. -/
theorem run_uncompleted {ls : List (Label X)} (h : c.Shaped) {i : ℕ}
    (hi : i < c.inst.tasks.length) (hr : (orchestratorMachine X).run c ls = some c') {t : Task X}
    (ht : c'.inst.tasks[i]? = some t) (hu : t.uncompleted = true) :
    c'.inst.orch.state = c.inst.orch.state := by
  have hinv : c'.Shaped ∧ i < c'.inst.tasks.length ∧ ∀ t, c'.inst.tasks[i]? = some t →
      t.uncompleted = true → c'.inst.orch.state = c.inst.orch.state := by
    refine Machine.run_preserves (I := fun d => d.Shaped ∧ i < d.inst.tasks.length ∧
      ∀ t, d.inst.tasks[i]? = some t → t.uncompleted = true →
        d.inst.orch.state = c.inst.orch.state) ?_ ⟨h, hi, fun _ _ _ => rfl⟩ hr
    rintro d l d' ⟨hd, hlen, hsame⟩ hl
    refine ⟨hd.step hl, ?_, fun t' ht' hu' => ?_⟩
    · have hle := (step_spawned hl).length_le
      rw [List.length_map, List.length_map] at hle
      omega
    · have ht := List.getElem?_eq_getElem hlen
      obtain ⟨hu, hs⟩ := step_uncompleted hd hl ht ht' hu'
      exact hs.trans (hsame _ ht hu)
  exact hinv.2.2 t ht hu

theorem Shaped.count_phase (h : c.Shaped) (φ : Phase) :
    (c.inst.tasks.countP fun t => t.phase = φ) ≤ 1 := by
  obtain ⟨⟨⟨st, ps, pa, lp, tx₁, tx₂, tx₃, a, k⟩, tasks⟩, pend⟩ := c
  simp only [Config.Shaped] at h ⊢
  cases h <;> cases φ <;> simp [Task.phase]

end Config

/-- In every run of an orchestrator: the rank of the state never decreases, and only an accepted
message or a completing task changes the state; at most one task of each phase is ever spawned; and
what a task replaces when it completes is the state in progress it was spawned under. -/
theorem phases_monotone {c : Config X} (h : (orchestratorMachine X).Reachable c) :
    (∀ ls c', (orchestratorMachine X).run c ls = some c' →
      c.inst.orch.state.rank ≤ c'.inst.orch.state.rank ∧
        c.inst.tasks.map Task.spawned <+: c'.inst.tasks.map Task.spawned) ∧
    (∀ φ, (c.inst.tasks.countP fun t => t.phase = φ) ≤ 1) ∧
    (∀ l c', c.step l = some c' → c'.inst.orch.state ≠ c.inst.orch.state →
      (∃ chan sender msg, l = .call chan sender msg ∧ c.inst.orch.Enters msg) ∨
        ∃ i, l = .advance i ∧ c.CompletionWrite i c') ∧
    (∀ l c₁ t, c.step l = some c₁ → c₁.inst.tasks[c.inst.tasks.length]? = some t →
      ∃ e, c₁.inst.orch.state.InProgress t.phase e ∧
        ∀ ls c₂ c₃, (orchestratorMachine X).run c₁ ls = some c₂ →
          c₂.CompletionWrite c.inst.tasks.length c₃ →
            c₂.inst.orch.state = c₁.inst.orch.state) := by
  have hs := reachable_shaped h
  refine ⟨fun ls c' hr => ⟨Config.run_rank hs hr, Config.run_spawned hr⟩, hs.count_phase, ?_, ?_⟩
  · intro l c' hl hne
    rcases Config.step_state hs hl with he | ⟨-, hcause⟩
    · exact absurd he hne
    · exact hcause
  · intro l c₁ t hl ht
    obtain ⟨e, he⟩ := Config.step_spawns hs hl ht
    refine ⟨e, he, ?_⟩
    rintro ls c₂ c₃ hr ⟨-, t₂, _, ht₂, hu₂, -, -⟩
    exact Config.run_uncompleted (hs.step hl) (List.getElem?_eq_some_iff.1 ht).1 hr ht₂ hu₂

/-- The run into the window of the key share. -/
theorem announced_monotone :
    (∀ ls c', (orchestratorMachine .plain).run ShareWindowRun.announced ls = some c' →
      4 ≤ c'.inst.orch.state.rank) ∧
    ∀ φ, (ShareWindowRun.announced.inst.tasks.countP fun t => t.phase = φ) ≤ 1 := by
  obtain ⟨hrank, hcount, -⟩ := phases_monotone ShareWindowRun.announced_reachable
  exact ⟨fun ls c' hr => (hrank ls c' hr).1, hcount⟩

end P2pMpc
