import P2pMpc.PhaseMonotone

/-!
# Aborting a protocol

`abort_protocol` reads the phase under one acquisition of the state lock and writes `Failed` under
another, and leaves the tasks alone. Like a handler it takes the orchestrator to itself, so only
tasks come between. What it does is final unless a task that was running completes its phase
afterwards, and it records what it replaces unless a task writes its outcome between the two
acquisitions, or the phase was completed to begin with.
-/

namespace P2pMpc

open StateMachine MPCOrchestrator

variable {X : Platform}

/-- The phase that `abort_protocol` records for a state. -/
def ProtocolState.currentPhase : ProtocolState X → String
  | .auxGeneration _ _ => "aux_generation"
  | .keygen _ _ _ => "keygen"
  | .signing _ _ _ _ => "signing"
  | _ => "unknown"

def ProtocolState.isCompleted : ProtocolState X → Bool
  | .auxCompleted => true
  | .keygenCompleted _ => true
  | .signingCompleted _ => true
  | _ => false

def ProtocolState.isFailed : ProtocolState X → Bool
  | .failed _ _ => true
  | _ => false

theorem ProtocolState.currentPhase_of_isCompleted {st : ProtocolState X}
    (h : st.isCompleted = true) : st.currentPhase = "unknown" := by
  cases st <;> first | rfl | cases h

theorem ProtocolState.of_isFailed {st : ProtocolState X} (h : st.isFailed = true) :
    st.isCompleted = false ∧ st.currentPhase = "unknown" := by
  cases st with
  | failed phase reason => exact ⟨rfl, rfl⟩
  | _ => cases h

theorem ProtocolState.isFailed_iff {st : ProtocolState X} :
    st.isFailed = true ↔ ∃ phase reason, st = .failed phase reason := by
  cases st <;> simp [isFailed]

/-- The next step of the task writes the completion of its phase. -/
def Task.completing : Task X → Bool
  | .aux _ _ _ .stored => true
  | .keygen _ _ _ _ (.returned (.ok _)) => true
  | .signing _ _ _ _ (.returned (.ok _)) => true
  | _ => false

/-- The next step of the task writes the failure of its phase. -/
def Task.failing : Task X → Bool
  | .aux _ _ _ (.returned (.error _)) => true
  | .keygen _ _ _ _ (.returned (.error _)) => true
  | .signing _ _ _ _ (.returned (.error _)) => true
  | _ => false

/-- The step belongs to a handler call, which has the orchestrator to itself. -/
def Label.handles : Label X → Bool
  | .call _ _ _ => true
  | .resume _ => true
  | _ => false

/-- The configuration with another protocol state. -/
def Config.withState (c : Config X) (st : ProtocolState X) : Config X :=
  { c with inst := { c.inst with orch := { c.inst.orch with state := st } } }

/-- An orchestrator, and the phase that a call of `abort_protocol` in progress has read. -/
structure AbortConfig (X : Platform) where
  config : Config X
  currentPhase : Option String

/-- The steps of an orchestrator, and the two lock acquisitions of `abort_protocol`. -/
inductive AbortLabel (X : Platform)
  | run (l : Label X)
  | abortRead
  | abortWrite (reason : String)

namespace AbortConfig

/-- The protocol state. -/
def state (s : AbortConfig X) : ProtocolState X := s.config.inst.orch.state

def step (s : AbortConfig X) : AbortLabel X → Option (AbortConfig X)
  | .run l =>
      if s.currentPhase.isSome && l.handles then none
      else (s.config.step l).map fun c => { s with config := c }
  | .abortRead =>
      if s.currentPhase.isNone && s.config.stateFree then
        some { s with currentPhase := some s.state.currentPhase }
      else none
  | .abortWrite reason =>
      match s.currentPhase with
      | none => none
      | some phase =>
        if s.config.stateFree then some ⟨s.config.withState (.failed phase reason), none⟩ else none

/-- In this step a task writes the completion of its phase. -/
def completes (s : AbortConfig X) : AbortLabel X → Bool
  | .run (.advance i) => s.config.inst.tasks[i]?.any Task.completing
  | _ => false

/-- In this step a task writes the failure of its phase. -/
def fails (s : AbortConfig X) : AbortLabel X → Bool
  | .run (.advance i) => s.config.inst.tasks[i]?.any Task.failing
  | _ => false

end AbortConfig

def abortMachine (X : Platform) : Machine (AbortConfig X) (AbortLabel X) where
  init s := (orchestratorMachine X).init s.config ∧ s.currentPhase = none
  step := AbortConfig.step

/-! ### What tasks write -/

theorem Task.uncompleted_of_failing {t : Task X} (h : t.failing = true) :
    t.uncompleted = true := by
  unfold Task.failing at h
  split at h <;> first | rfl | cases h

/-- A task that advances writes the completion of its phase, or its failure, or no state. -/
theorem Task.advance_outcome {stateFree auxFree : Bool} {o o' : MPCOrchestrator X} {t t' : Task X}
    (h : t.advance stateFree auxFree o = some (o', t')) :
    (t.completing = true ∧ t.failing = false ∧ o'.state.isCompleted = true) ∨
    (t.completing = false ∧ t.failing = true ∧ o'.state.isFailed = true) ∨
    (t.completing = false ∧ t.failing = false ∧ o'.state = o.state) := by
  unfold Task.advance at h
  split at h <;> (try split_ifs at h) <;> cases h <;>
    first
    | exact .inl ⟨rfl, rfl, rfl⟩
    | exact .inr (.inl ⟨rfl, rfl, rfl⟩)
    | exact .inr (.inr ⟨rfl, rfl, rfl⟩)

/-- A task advances whatever the state is: it overwrites it or leaves it. -/
theorem Task.advance_withState {stateFree auxFree : Bool} {o o' : MPCOrchestrator X}
    {t t' : Task X} (h : t.advance stateFree auxFree o = some (o', t')) (st : ProtocolState X) :
    t.advance stateFree auxFree { o with state := st } = some (o', t') ∨
    (o'.state = o.state ∧
      t.advance stateFree auxFree { o with state := st } = some ({ o' with state := st }, t')) := by
  unfold Task.advance at h
  split at h <;> (try split_ifs at h with hfree) <;> cases h <;>
    first
    | exact .inl (if_pos hfree)
    | exact .inr ⟨rfl, if_pos hfree⟩
    | exact .inr ⟨rfl, rfl⟩

/-! ### The shapes under aborts -/

namespace Config

variable {c c' : Config X}

/-- The configuration has one of the shapes, or would have but for an abort. -/
def AbortShaped (c : Config X) : Prop :=
  c.Shaped ∨ c.inst.orch.state.isFailed = true ∧ c.pending = none ∧ ∃ st, (c.withState st).Shaped

/-- A call is rejected once the state is `Failed`. -/
theorem call_of_failed (hf : c.inst.orch.state.isFailed = true) (hp : c.pending = none)
    (chan : ChannelId) (sender : X.PeerId) (msg : CoordinationMessage X) :
    c.call chan sender msg = c := by
  have hnot : ¬ c.inst.orch.Enters msg := by
    intro h
    obtain ⟨phase, reason, he⟩ := ProtocolState.isFailed_iff.1 hf
    simpa [he, readyForKeygen, readyForSigning] using h.ready
  rcases c.call_cases hp chan sender msg with ⟨-, he⟩ | ⟨_, _, _, _, i, ts, rfl, hc, -⟩ |
      ⟨_, _, _, _, i, ts, rfl, hc, -⟩ | ⟨_, _, _, _, i, ts, rfl, hc, -⟩
  · exact he
  · exact absurd ⟨i, ts, hc⟩ hnot
  · exact absurd ⟨i, ts, hc⟩ hnot
  · exact absurd ⟨i, ts, hc⟩ hnot

theorem AbortShaped.step (h : c.AbortShaped) {l : Label X} (hl : c.step l = some c') :
    c'.AbortShaped := by
  rcases h with h | ⟨hf, hp, st, h⟩
  · exact .inl (h.step hl)
  cases l with
  | call chan sender msg =>
    obtain ⟨-, rfl⟩ := step_call_eq_some.1 hl
    rw [call_of_failed hf hp]
    exact .inr ⟨hf, hp, st, h⟩
  | resume chan => simp [Config.step, hp] at hl
  | finish i r =>
    obtain ⟨t, t', ht, hft, rfl⟩ := step_finish_eq_some.1 hl
    exact .inr ⟨hf, hp, st, h.step (step_finish_eq_some.2 ⟨t, t', ht, hft, rfl⟩)⟩
  | advance i =>
    obtain ⟨t, t', o, ht, ha, rfl⟩ := step_advance_eq_some.1 hl
    -- the task moves as it would under the state that was replaced
    rcases Task.advance_withState ha st with ha' | ⟨hsame, ha'⟩
    · exact .inl (h.step (c := c.withState st) (step_advance_eq_some.2 ⟨t, t', o, ht, ha', rfl⟩))
    · exact .inr ⟨(congrArg ProtocolState.isFailed hsame).trans hf, hp, st,
        h.step (c := c.withState st) (step_advance_eq_some.2 ⟨t, t', _, ht, ha', rfl⟩)⟩

/-- A state that a task is about to overwrite is that of a phase in progress, or `Failed`. -/
theorem AbortShaped.of_uncompleted (h : c.AbortShaped) {i : ℕ} {t : Task X}
    (ht : c.inst.tasks[i]? = some t) (hu : t.uncompleted = true) :
    c.inst.orch.state.isFailed = true ∨ c.inst.orch.state.currentPhase ≠ "unknown" := by
  rcases h with h | ⟨hf, -⟩
  · obtain ⟨⟨e, he⟩, -⟩ := h.of_uncompleted ht hu
    generalize c.inst.orch.state = st at he
    cases st <;> first | exact he.elim | exact .inr (by simp [ProtocolState.currentPhase])
  · exact .inl hf

end Config

namespace AbortConfig

variable {s t : AbortConfig X} {l : AbortLabel X}

/-- What holds of every reachable orchestrator: its shape, and that no handler runs during an
abort. -/
structure Sound (s : AbortConfig X) : Prop where
  shaped : s.config.AbortShaped
  alone : s.currentPhase ≠ none → s.config.pending = none

theorem step_run_eq_some {l : Label X} : s.step (.run l) = some t ↔
    (s.currentPhase ≠ none → l.handles = false) ∧
      ∃ c, s.config.step l = some c ∧ t = ⟨c, s.currentPhase⟩ := by
  simp only [step, Option.ite_none_left_eq_some, Option.map_eq_some_iff, eq_comm (a := t)]
  cases s.currentPhase <;> simp

theorem step_abortRead_eq_some : s.step .abortRead = some t ↔
    s.currentPhase = none ∧ s.config.pending = none ∧
      t = ⟨s.config, some s.state.currentPhase⟩ := by
  simp only [step, Option.ite_none_right_eq_some, Config.stateFree, Bool.and_eq_true,
    Option.isNone_iff_eq_none, Option.some.injEq, and_assoc]
  rw [eq_comm (a := t)]

theorem step_abortWrite_eq_some {reason : String} : s.step (.abortWrite reason) = some t ↔
    ∃ phase, s.currentPhase = some phase ∧ s.config.pending = none ∧
      t = ⟨s.config.withState (.failed phase reason), none⟩ := by
  simp only [step]
  cases s.currentPhase with
  | none => simp
  | some phase => simp [Config.stateFree, eq_comm (a := t)]

theorem Sound.step (h : s.Sound) (hl : s.step l = some t) : t.Sound := by
  cases l with
  | run l =>
    obtain ⟨hfree, c, hc, rfl⟩ := step_run_eq_some.1 hl
    refine ⟨h.shaped.step hc, fun hphase => ?_⟩
    have hp := h.alone hphase
    cases l with
    | call | resume => cases hfree hphase
    | finish i r =>
      obtain ⟨_, _, -, -, rfl⟩ := Config.step_finish_eq_some.1 hc
      exact hp
    | advance i =>
      obtain ⟨_, _, _, -, -, rfl⟩ := Config.step_advance_eq_some.1 hc
      exact hp
  | abortRead =>
    obtain ⟨-, hp, rfl⟩ := step_abortRead_eq_some.1 hl
    exact ⟨h.shaped, fun _ => hp⟩
  | abortWrite reason =>
    obtain ⟨phase, -, hp, rfl⟩ := step_abortWrite_eq_some.1 hl
    refine ⟨.inr ⟨rfl, hp, ?_⟩, fun hphase => absurd rfl hphase⟩
    rcases h.shaped with hs | ⟨-, -, st, hs⟩
    · exact ⟨s.state, hs⟩
    · exact ⟨st, hs⟩

theorem reachable_sound (h : (abortMachine X).Reachable s) : s.Sound := by
  refine h.induct ?_ fun s l t hs hl => hs.step hl
  rintro s ⟨hinit, hnone⟩
  exact ⟨.inl (reachable_shaped (.of_init hinit)), fun hphase => absurd hnone hphase⟩

/-- While an abort is in progress or the state is `Failed`, only tasks write the state, apart from
aborts. -/
theorem step_state (h : s.Sound) (hs : s.currentPhase ≠ none ∨ s.state.isFailed = true)
    (hw : ∀ reason, l ≠ .abortWrite reason) (hl : s.step l = some t) :
    (s.completes l = true ∧ t.state.isCompleted = true) ∨
    (s.completes l = false ∧ s.fails l = true ∧ t.state.isFailed = true ∧
      (s.state.isFailed = true ∨ s.state.currentPhase ≠ "unknown")) ∨
    (s.completes l = false ∧ s.fails l = false ∧ t.state = s.state) := by
  cases l with
  | run l =>
    obtain ⟨hfree, c, hc, rfl⟩ := step_run_eq_some.1 hl
    cases l with
    | call chan sender msg =>
      obtain ⟨hp, rfl⟩ := Config.step_call_eq_some.1 hc
      rcases hs with hphase | hf
      · cases hfree hphase
      · exact .inr (.inr ⟨rfl, rfl, by rw [Config.call_of_failed hf hp]⟩)
    | resume chan =>
      rcases hs with hphase | hf
      · cases hfree hphase
      · rcases Config.resume_cases hc with ⟨_, -, -, rfl⟩ | ⟨_, _, _, _, _, -, -, rfl⟩ |
          ⟨_, _, _, _, _, -, -, rfl⟩ | ⟨_, _, _, _, _, _, -, -, rfl⟩ <;>
          exact .inr (.inr ⟨rfl, rfl, rfl⟩)
    | finish i r =>
      obtain ⟨_, _, -, -, rfl⟩ := Config.step_finish_eq_some.1 hc
      exact .inr (.inr ⟨rfl, rfl, rfl⟩)
    | advance i =>
      obtain ⟨u, u', o, hu, ha, rfl⟩ := Config.step_advance_eq_some.1 hc
      have hcompletes : s.completes (.run (.advance i)) = u.completing := by simp [completes, hu]
      have hfails : s.fails (.run (.advance i)) = u.failing := by simp [fails, hu]
      rw [hcompletes, hfails]
      rcases Task.advance_outcome ha with ⟨hc, hf, ho⟩ | ⟨hc, hf, ho⟩ | ⟨hc, hf, ho⟩
      · exact .inl ⟨hc, ho⟩
      · exact .inr (.inl ⟨hc, hf, ho,
          h.shaped.of_uncompleted hu (Task.uncompleted_of_failing hf)⟩)
      · exact .inr (.inr ⟨hc, hf, ho⟩)
  | abortRead =>
    obtain ⟨-, -, rfl⟩ := step_abortRead_eq_some.1 hl
    exact .inr (.inr ⟨rfl, rfl, rfl⟩)
  | abortWrite reason => exact absurd rfl (hw reason)

/-- No task writes its outcome over the state of a phase in progress, and none completes a phase
once it has failed. -/
def Undisturbed (s : AbortConfig X) (l : AbortLabel X) : Prop :=
  s.completes l = false ∧ (s.fails l = true → s.state.isFailed = true)

instance (s : AbortConfig X) (l : AbortLabel X) : Decidable (s.Undisturbed l) :=
  inferInstanceAs (Decidable (_ ∧ _))

/-- The abort in progress may write: it would replace a state that is not completed, and has read
its phase. -/
def Truthful (phase : String) (s : AbortConfig X) : Prop :=
  s.state.isCompleted = false ∧ s.state.currentPhase = phase

/-- Between the two acquisitions, with `phase` read: the state still is of the phase, or of none. -/
structure Aborting (phase : String) (s : AbortConfig X) : Prop where
  sound : s.Sound
  read : s.currentPhase = some phase
  state : s.state.currentPhase = phase ∨ s.state.currentPhase = "unknown"

theorem Aborting.step {phase : String} (h : s.Aborting phase)
    (hw : ∀ reason, l ≠ .abortWrite reason) (hl : s.step l = some t) : t.Aborting phase := by
  have hread : t.currentPhase = some phase := by
    cases l with
    | run l =>
      obtain ⟨-, c, -, rfl⟩ := step_run_eq_some.1 hl
      exact h.read
    | abortRead =>
      obtain ⟨hnone, -⟩ := step_abortRead_eq_some.1 hl
      rw [h.read] at hnone
      cases hnone
    | abortWrite reason => exact absurd rfl (hw reason)
  refine ⟨h.sound.step hl, hread, ?_⟩
  rcases step_state h.sound (.inl (by simp [h.read])) hw hl with ⟨-, hc⟩ | ⟨-, -, hf, -⟩ |
      ⟨-, -, he⟩
  · exact .inr (ProtocolState.currentPhase_of_isCompleted hc)
  · exact .inr (ProtocolState.of_isFailed hf).2
  · rw [he]
    exact h.state

/-- Between the two acquisitions, a step keeps the abort truthful exactly if it is undisturbed. -/
theorem Aborting.truthful_step_iff {phase : String} (h : s.Aborting phase)
    (hw : ∀ reason, l ≠ .abortWrite reason) (hl : s.step l = some t) :
    t.Truthful phase ↔ s.Truthful phase ∧ s.Undisturbed l := by
  unfold Truthful Undisturbed
  rcases step_state h.sound (.inl (by simp [h.read])) hw hl with ⟨hc, ht⟩ | ⟨hc, hf, ht, hover⟩ |
      ⟨hc, hf, he⟩
  · simp [hc, ht]
  · have hname := (ProtocolState.of_isFailed ht).2
    have hnot := (ProtocolState.of_isFailed ht).1
    simp only [hnot, hname, hc, hf, true_and, forall_const]
    constructor
    · intro hphase
      have hs : s.state.currentPhase = "unknown" := by
        rcases h.state with he | he
        · exact he.trans hphase.symm
        · exact he
      have hfailed := hover.resolve_right fun hne => hne hs
      exact ⟨⟨(ProtocolState.of_isFailed hfailed).1, hs.trans hphase⟩, hfailed⟩
    · rintro ⟨⟨-, hs⟩, hfailed⟩
      exact (ProtocolState.of_isFailed hfailed).2.symm.trans hs
  · simp [hc, hf, he]

/-- After an abort, a step keeps the state `Failed` exactly if no task completes its phase in it. -/
theorem failed_step_iff (h : s.Sound) (hs : s.state.isFailed = true) (hl : s.step l = some t) :
    t.state.isFailed = true ↔ s.completes l = false := by
  by_cases hw : ∀ reason, l ≠ .abortWrite reason
  · rcases step_state h (.inr hs) hw hl with ⟨hc, ht⟩ | ⟨hc, -, ht, -⟩ | ⟨hc, -, he⟩
    · rw [hc]
      refine iff_of_false (fun hf => ?_) (by decide)
      rw [(ProtocolState.of_isFailed hf).1] at ht
      cases ht
    · exact iff_of_true ht hc
    · rw [he]
      exact iff_of_true hs hc
  · obtain ⟨reason, he⟩ := not_forall.1 hw
    obtain rfl := not_not.1 he
    obtain ⟨phase, -, -, rfl⟩ := step_abortWrite_eq_some.1 hl
    exact iff_of_true rfl rfl

end AbortConfig

open AbortConfig

/-- For every call of `abort_protocol` in every interleaving, between its read, its write and
whatever follows: it replaces a state that is not completed, records the phase of that state, and
leaves the state `Failed` for good, exactly if the state it reads is not completed, no task writes
its outcome over a phase in progress or completes a failed one before the write, and none completes
its phase afterwards. -/
theorem abort_final_iff {s s₁ s₂ s₃ t : AbortConfig X} {mid post : List (AbortLabel X)}
    {reason : String} (h : (abortMachine X).Reachable s) (hread : s.step .abortRead = some s₁)
    (hmid : (abortMachine X).run s₁ mid = some s₂) (hone : ∀ l ∈ mid, ∀ r, l ≠ .abortWrite r)
    (hwrite : s₂.step (.abortWrite reason) = some s₃)
    (hpost : (abortMachine X).run s₃ post = some t) :
    (s₂.state.isCompleted = false ∧ s₃.state = .failed s₂.state.currentPhase reason ∧
      ∀ pre u, pre <+: post → (abortMachine X).run s₃ pre = some u → u.state.isFailed = true) ↔
    s.state.isCompleted = false ∧ (abortMachine X).Meets Undisturbed s₁ mid ∧
      (abortMachine X).Meets (fun u l => u.completes l = false) s₃ post := by
  obtain ⟨-, hp, rfl⟩ := step_abortRead_eq_some.1 hread
  have hsound₁ := (reachable_sound h).step hread
  have haborting : Aborting s.state.currentPhase ⟨s.config, some s.state.currentPhase⟩ :=
    ⟨hsound₁, rfl, .inl rfl⟩
  have hmeets := Machine.meets_of_forall_mem (M := abortMachine X) hone
    ⟨s.config, some s.state.currentPhase⟩
  have htruthful := Machine.run_iff_meets_of_meets (M := abortMachine X)
    (I := Truthful s.state.currentPhase) (K := Aborting s.state.currentPhase) (G := Undisturbed)
    (fun _ _ _ hs hw hl => hs.step hw hl) (fun _ _ _ hs hw hl => hs.truthful_step_iff hw hl)
    haborting hmeets hmid
  have haborting₂ : Aborting s.state.currentPhase s₂ :=
    Machine.run_preserves_of_meets (fun _ _ _ hs hw hl => hs.step hw hl) haborting hmeets hmid
  obtain ⟨phase, hphase, -, rfl⟩ := step_abortWrite_eq_some.1 hwrite
  obtain rfl : phase = s.state.currentPhase := Option.some.inj (hphase.symm.trans haborting₂.read)
  have hfinal := Machine.run_forall_iff_meets (M := abortMachine X)
    (I := fun u => u.state.isFailed = true) (K := Sound) (G := fun u l => u.completes l = false)
    (H := fun _ _ => True) (fun _ _ _ hs _ hl => hs.step hl)
    (fun _ _ _ hs _ hf hl => failed_step_iff hs hf hl) (haborting₂.sound.step hwrite)
    (Machine.meets_of_forall (fun _ _ => trivial) _ _) hpost
  have hrecord : (⟨s₂.config.withState (.failed s.state.currentPhase reason), none⟩ :
      AbortConfig X).state = .failed s₂.state.currentPhase reason ↔
        s₂.state.currentPhase = s.state.currentPhase := by
    simp [AbortConfig.state, Config.withState, eq_comm]
  have hs₂ : s₂.state.isCompleted = false ∧ s₂.state.currentPhase = s.state.currentPhase ↔
      s.state.isCompleted = false ∧ (abortMachine X).Meets Undisturbed
        ⟨s.config, some s.state.currentPhase⟩ mid := by
    refine htruthful.trans (and_congr_left' ?_)
    exact and_iff_left rfl
  rw [hfinal, hrecord, ← and_assoc, hs₂, and_assoc]
  refine and_congr_right fun _ => and_congr_right fun _ => ?_
  exact and_iff_right rfl

namespace AbortRun

/-- The orchestrator of `b`, whose aux generation runs. -/
def labels : List (AbortLabel .plain) :=
  [.run (.call 0 "a" (.initiateAux [] [] (.ofEntries [("a", 0), ("b", 1), ("c", 2)]) ⟨0⟩))]

def start : AbortConfig .plain :=
  ⟨⟨⟨.new "b" ["a", "b", "c"] (.ofEntries [("a", 0), ("b", 1), ("c", 2)]), []⟩, none⟩, none⟩

/-- The run of the task returns. -/
def returned (r : Except String ℕ) : AbortLabel .plain := .run (.finish 0 (.aux r))

theorem init_start : (abortMachine .plain).init start := ⟨⟨_, _, _, rfl⟩, rfl⟩

end AbortRun

open AbortRun

/-- An aborted aux generation completes after all; and if it does so while it is aborted, its
completion is replaced, under the phase it was in before. -/
theorem abort_undone : ∃ s s₁ s₂ s₃ t : AbortConfig .plain,
    (abortMachine .plain).run start labels = some s ∧ s.step .abortRead = some s₁ ∧
    s₁.step (.abortWrite "timeout") = some s₂ ∧ s₂.state = .failed "aux_generation" "timeout" ∧
    (abortMachine .plain).run s₂ [returned (.ok 7), .run (.advance 0), .run (.advance 0)] =
      some s₃ ∧ s₃.state = .auxCompleted ∧ ¬ s₃.state.isFailed = true ∧
    (abortMachine .plain).run s₁ [returned (.ok 7), .run (.advance 0), .run (.advance 0)] =
      some t ∧ t.state = .auxCompleted ∧
    ∃ u, t.step (.abortWrite "timeout") = some u ∧ u.state = .failed "aux_generation" "timeout" :=
  ⟨_, _, _, _, _, rfl, rfl, rfl, rfl, rfl, rfl, by decide, rfl, rfl, _, rfl, rfl⟩

/-- One that fails while it is aborted stays aborted. -/
theorem abort_stands : ∃ s s₁ s₂ s₃ t : AbortConfig .plain,
    (abortMachine .plain).run start labels = some s ∧ s.step .abortRead = some s₁ ∧
    (abortMachine .plain).run s₁ [returned (.error "eof")] = some s₂ ∧
    s₂.step (.abortWrite "timeout") = some s₃ ∧
    (abortMachine .plain).run s₃ [.run (.advance 0)] = some t ∧
    s₃.state = .failed s₂.state.currentPhase "timeout" ∧ t.state.isFailed = true := by
  have hrun : ∃ s s₁ s₂ s₃ t : AbortConfig .plain,
      (abortMachine .plain).run start labels = some s ∧ s.step .abortRead = some s₁ ∧
      (abortMachine .plain).run s₁ [returned (.error "eof")] = some s₂ ∧
      s₂.step (.abortWrite "timeout") = some s₃ ∧
      (abortMachine .plain).run s₃ [.run (.advance 0)] = some t ∧
      s.state.isCompleted = false ∧
      (abortMachine .plain).Meets Undisturbed s₁ [returned (.error "eof")] ∧
      (abortMachine .plain).Meets (fun u l => u.completes l = false) s₃ [.run (.advance 0)] :=
    ⟨_, _, _, _, _, rfl, rfl, rfl, rfl, rfl, rfl, by decide, by decide⟩
  obtain ⟨s, s₁, s₂, s₃, t, hs, hread, hmid, hwrite, hpost, hcompleted, hundisturbed, hnone⟩ := hrun
  have hfinal := (abort_final_iff ⟨_, _, init_start, hs⟩ hread hmid (by simp [returned]) hwrite
    hpost).2 ⟨hcompleted, hundisturbed, hnone⟩
  exact ⟨s, s₁, s₂, s₃, t, hs, hread, hmid, hwrite, hpost, hfinal.2.1,
    hfinal.2.2 _ _ List.prefix_rfl hpost⟩

end P2pMpc
