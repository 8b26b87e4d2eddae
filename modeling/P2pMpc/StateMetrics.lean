import P2pMpc.Lib.Lists
import P2pMpc.Node
import P2pMpc.SignatureOrigin

/-!
# The metrics of the phases

The handlers and the tasks of an orchestrator count the phases that were initiated, completed and
failed, and set one gauge for each protocol state: all to 0, one after the other, then that of the
new state to 1. The metrics belong to the process. A process installs one orchestrator after the
other and the tasks of a replaced one go on; each of them updates the gauges under the lock of its
own state only, so the writes of two of them may come in any order, and a new one writes nothing
before its first phase. What the metrics tell of such a process is `metrics_account`; two updates
that overlap can leave the gauges of two states set (`overlapping_updates`).

Gauges and counters are natural numbers here, and a gauge that has not been set yet is 0.
-/

namespace P2pMpc

open StateMachine MPCOrchestrator

variable {X : Platform}

/-- The metrics that an orchestrator writes; `initiated`, `completed` and `failed` stand for the
counters `AUX_GENERATION_INITIATED` to `SIGNING_FAILED`. -/
structure StateMetrics where
  mpcProtocolState : String → ℕ
  activeParties : ℕ
  thresholdValue : ℕ
  initiated : Phase → ℕ
  completed : Phase → ℕ
  failed : Phase → ℕ

/-- The labels of the state gauge, in the order `update_state_metrics` resets them. -/
def stateLabels : List String :=
  ["idle", "aux_generation", "aux_completed", "keygen", "keygen_completed", "signing",
    "signing_completed", "failed"]

def ProtocolState.label : ProtocolState X → String
  | .idle => "idle"
  | .auxGeneration _ _ => "aux_generation"
  | .auxCompleted => "aux_completed"
  | .keygen _ _ _ => "keygen"
  | .keygenCompleted _ => "keygen_completed"
  | .signing _ _ _ _ => "signing"
  | .signingCompleted _ => "signing_completed"
  | .failed _ _ => "failed"

/-- The phase in progress. -/
def ProtocolState.phase : ProtocolState X → Option Phase
  | .auxGeneration _ _ => some .aux
  | .keygen _ _ _ => some .keygen
  | .signing _ _ _ _ => some .signing
  | _ => none

/-- One write of a metric: a gauge is set, or a counter goes up by one. -/
inductive MetricWrite
  | mpcProtocolState (label : String) (value : ℕ)
  | activeParties (value : ℕ)
  | thresholdValue (value : ℕ)
  | initiated (φ : Phase)
  | completed (φ : Phase)
  | failed (φ : Phase)
  deriving DecidableEq

namespace StateMetrics

/-- The metrics of a process that has just started. -/
def new : StateMetrics := ⟨fun _ => 0, 0, 0, fun _ => 0, fun _ => 0, fun _ => 0⟩

/-- The metrics after one write. -/
def write (m : StateMetrics) : MetricWrite → StateMetrics
  | .mpcProtocolState label value =>
      { m with mpcProtocolState := Function.update m.mpcProtocolState label value }
  | .activeParties value => { m with activeParties := value }
  | .thresholdValue value => { m with thresholdValue := value }
  | .initiated φ => { m with initiated := Function.update m.initiated φ (m.initiated φ + 1) }
  | .completed φ => { m with completed := Function.update m.completed φ (m.completed φ + 1) }
  | .failed φ => { m with failed := Function.update m.failed φ (m.failed φ + 1) }

end StateMetrics

/-- The writes of `update_state_metrics`, in order. The signers of the state are a set. -/
def updateStateMetrics (state : ProtocolState X) : List MetricWrite :=
  stateLabels.map (.mpcProtocolState · 0) ++ .mpcProtocolState state.label 1 ::
    match state with
    | .keygen _ _ threshold => [.thresholdValue threshold.toNat]
    | .signing _ _ _ signers => [.activeParties signers.dedup.length]
    | _ => []

/-- The writes of an Initiate handler that enters the phase. -/
def initiateWrites (φ : Phase) (state : ProtocolState X) (activeParties : ℕ) : List MetricWrite :=
  updateStateMetrics state ++ [.initiated φ, .activeParties activeParties]

/-- What a task counts when its protocol run has returned. -/
def Outcome.write : Outcome X → MetricWrite
  | .aux (.ok _) => .completed .aux
  | .aux (.error _) => .failed .aux
  | .keygen (.ok _) => .completed .keygen
  | .keygen (.error _) => .failed .keygen
  | .signing (.ok _) => .completed .signing
  | .signing (.error _) => .failed .signing

/-- The next lock acquisition of the task writes the protocol state. -/
def Task.writesState : Task X → Bool
  | .aux _ _ _ .stored => true
  | .aux _ _ _ (.returned (.error _)) => true
  | .keygen _ _ _ _ (.returned _) => true
  | .signing _ _ _ _ (.returned _) => true
  | _ => false

namespace Config

/-- The writes that a step of an orchestrator entails; `c'` is the configuration after it. -/
def writes (c c' : Config X) : Label X → List MetricWrite
  | .call chan sender (.initiateAux executionId _ partyAssignments timestamp) =>
      match (c.inst.orch.handleInitiateAux chan sender executionId partyAssignments
          timestamp).result with
      | .error _ => []
      | .ok () => initiateWrites .aux c'.inst.orch.state c.inst.orch.participants.length
  | .call _ sender (.initiateKeygen executionId threshold totalParties timestamp) =>
      match c.inst.orch.enterKeygen sender executionId threshold totalParties timestamp with
      | .error _ => []
      | .ok _ =>
        initiateWrites .keygen c'.inst.orch.state totalParties.toNat ++
          [.thresholdValue threshold.toNat]
  | .call _ sender (.initiateSigning executionId message signers timestamp) =>
      match c.inst.orch.enterSigning sender executionId message signers timestamp with
      | .error _ => []
      | .ok _ => initiateWrites .signing c'.inst.orch.state signers.length
  | .call _ _ _ => []
  | .resume _ => []
  | .finish _ r => [r.write]
  | .advance i =>
      if c.inst.tasks[i]?.any Task.writesState then updateStateMetrics c'.inst.orch.state else []

end Config

/-! ### What a step counts -/

/-- The orchestrator is in the phase, and no protocol run of the phase has returned to a task of
its: one is running, or none has been started. -/
def Config.underWay (c : Config X) (φ : Phase) : Bool :=
  c.inst.orch.state.phase == some φ && c.inst.tasks.all fun t => t.phase != φ || t.runs φ

/-- The state gauges among some writes, with their values. -/
def gaugeWrites (ws : List MetricWrite) : List (String × ℕ) :=
  ws.filterMap fun
    | .mpcProtocolState label value => some (label, value)
    | _ => none

/-- How often the end of the phase is counted among some writes. -/
def endWrites (ws : List MetricWrite) (φ : Phase) : ℕ :=
  ws.count (.completed φ) + ws.count (.failed φ)

/-- The state gauges that an update writes. -/
def showing (st : ProtocolState X) : List (String × ℕ) :=
  stateLabels.map (·, 0) ++ [(st.label, 1)]

/-- What a step of an orchestrator is to the metrics: it writes none, or it enters a phase, or a
protocol run returns, or a task ends a phase. -/
inductive MetricsStep (c c' : Config X) (ws : List MetricWrite) : Prop
  | quiet (hws : ws = []) (hstate : c'.inst.orch.state = c.inst.orch.state)
      (hway : c'.underWay = c.underWay)
  | enters (φ : Phase) (hinitiated : ∀ ψ, ws.count (.initiated ψ) = if ψ = φ then 1 else 0)
      (hended : ∀ ψ, endWrites ws ψ = 0) (hgauges : gaugeWrites ws = showing c'.inst.orch.state)
      (hstate : c'.inst.orch.state.phase = some φ) (hbefore : ∀ ψ, c.underWay ψ = false)
      (hafter : ∀ ψ, c'.underWay ψ = (ψ == φ))
  | returns (φ : Phase) (hinitiated : ∀ ψ, ws.count (.initiated ψ) = 0)
      (hended : ∀ ψ, endWrites ws ψ = if ψ = φ then 1 else 0) (hgauges : gaugeWrites ws = [])
      (hstate : c'.inst.orch.state = c.inst.orch.state) (hbefore : ∀ ψ, c.underWay ψ = (ψ == φ))
      (hafter : ∀ ψ, c'.underWay ψ = false)
  | ends (hinitiated : ∀ ψ, ws.count (.initiated ψ) = 0) (hended : ∀ ψ, endWrites ws ψ = 0)
      (hgauges : gaugeWrites ws = showing c'.inst.orch.state)
      (hstate : c'.inst.orch.state ≠ .idle) (hbefore : ∀ ψ, c.underWay ψ = false)
      (hafter : ∀ ψ, c'.underWay ψ = false)

theorem gaugeWrites_append (ws ws' : List MetricWrite) :
    gaugeWrites (ws ++ ws') = gaugeWrites ws ++ gaugeWrites ws' :=
  List.filterMap_append

theorem gaugeWrites_updateStateMetrics (st : ProtocolState X) :
    gaugeWrites (updateStateMetrics st) = showing st := by
  cases st <;> rfl

theorem endWrites_append (ws ws' : List MetricWrite) (φ : Phase) :
    endWrites (ws ++ ws') φ = endWrites ws φ + endWrites ws' φ := by
  simp only [endWrites, List.count_append]
  omega

/-- An update of the gauges counts nothing. -/
theorem counts_updateStateMetrics (st : ProtocolState X) (φ : Phase) :
    (updateStateMetrics st).count (.initiated φ) = 0 ∧ endWrites (updateStateMetrics st) φ = 0 := by
  cases st <;> cases φ <;> exact ⟨rfl, rfl⟩

/-- Setting the threshold counts nothing and writes no gauge of a state. -/
theorem counts_thresholdValues {ws : List MetricWrite} (h : ∀ w ∈ ws, ∃ v, w = .thresholdValue v) :
    (∀ ψ, ws.count (.initiated ψ) = 0) ∧ (∀ ψ, endWrites ws ψ = 0) ∧ gaugeWrites ws = [] := by
  have hnone : ∀ w, (∀ v, w ≠ .thresholdValue v) → ws.count w = 0 := by
    intro w hw
    refine List.count_eq_zero.2 fun hmem => ?_
    obtain ⟨v, rfl⟩ := h w hmem
    exact hw v rfl
  refine ⟨fun ψ => hnone _ (by rintro v ⟨⟩), fun ψ => ?_, List.filterMap_eq_nil_iff.2 ?_⟩
  · rw [endWrites, hnone _ (by rintro v ⟨⟩), hnone _ (by rintro v ⟨⟩)]
  · intro w hw
    obtain ⟨v, rfl⟩ := h w hw
    rfl

/-- An Initiate handler counts its phase once and updates the gauges; one of them sets the threshold
once more. -/
theorem counts_initiate {ws : List MetricWrite} (φ : Phase) (st : ProtocolState X) (k : ℕ)
    (h : ∀ w ∈ ws, ∃ v, w = .thresholdValue v) :
    (∀ ψ, (initiateWrites φ st k ++ ws).count (.initiated ψ) = if ψ = φ then 1 else 0) ∧
    (∀ ψ, endWrites (initiateWrites φ st k ++ ws) ψ = 0) ∧
    gaugeWrites (initiateWrites φ st k ++ ws) = showing st := by
  obtain ⟨hinitiated, hended, hgauges⟩ := counts_thresholdValues h
  refine ⟨fun ψ => ?_, fun ψ => ?_, ?_⟩
  · rw [initiateWrites, List.count_append, List.count_append, (counts_updateStateMetrics st ψ).1,
      hinitiated]
    cases φ <;> cases ψ <;> rfl
  · rw [initiateWrites, endWrites_append, endWrites_append, (counts_updateStateMetrics st ψ).2,
      hended]
    cases φ <;> cases ψ <;> rfl
  · rw [initiateWrites, gaugeWrites_append, gaugeWrites_append, gaugeWrites_updateStateMetrics,
      hgauges]
    simp [gaugeWrites]

/-- The phase whose protocol run has returned. -/
def Outcome.phase : Outcome X → Phase
  | .aux _ => .aux
  | .keygen _ => .keygen
  | .signing _ => .signing

/-- A protocol run that returns counts once, as completed or as failed. -/
theorem Outcome.counts_write (r : Outcome X) (ψ : Phase) :
    ([r.write] : List MetricWrite).count (.initiated ψ) = 0 ∧
      endWrites [r.write] ψ = (if ψ = r.phase then 1 else 0) ∧ gaugeWrites [r.write] = [] := by
  rcases r with r | r | r <;> cases r <;> cases ψ <;> exact ⟨rfl, rfl, rfl⟩

/-- A protocol run returns to a task that runs it. -/
theorem Task.finish_runs {r : Outcome X} {t t' : Task X} (h : t.finish r = some t') :
    t.phase = r.phase ∧ t.runs t.phase = true ∧ t'.phase = t.phase ∧
      t'.runs t'.phase = false := by
  unfold Task.finish at h
  split at h <;> cases h <;> exact ⟨rfl, rfl, rfl, rfl⟩

/-- A task that writes the state has its phase before it, and ends it. -/
theorem Task.advance_writes {stateFree auxFree : Bool} {o o' : MPCOrchestrator X} {t t' : Task X}
    (h : t.advance stateFree auxFree o = some (o', t')) (hw : t.writesState = true) :
    t.uncompleted = true ∧ t.runs t.phase = false ∧ t'.phase = t.phase ∧ o'.state.phase = none ∧
      o'.state ≠ .idle := by
  unfold Task.advance at h
  split at h <;> (try split_ifs at h) <;> cases h <;>
    first
    | exact ⟨rfl, rfl, rfl, rfl, by rintro ⟨⟩⟩
    | cases hw

/-- A task that does not write the state leaves its phase where it was. -/
theorem Task.advance_quiet {stateFree auxFree : Bool} {o o' : MPCOrchestrator X} {t t' : Task X}
    (h : t.advance stateFree auxFree o = some (o', t')) (hw : t.writesState = false) :
    o'.state = o.state ∧ t'.phase = t.phase ∧ ∀ φ, t'.runs φ = t.runs φ := by
  unfold Task.advance at h
  split at h <;> (try split_ifs at h) <;> cases h <;>
    first
    | exact ⟨rfl, rfl, fun φ => by cases φ <;> rfl⟩
    | cases hw

theorem ProtocolState.InProgress.phase_eq {st : ProtocolState X} {φ : Phase} {e : List UInt8}
    (h : st.InProgress φ e) : st.phase = some φ := by
  cases st <;> first | exact h.elim | (obtain ⟨rfl, -⟩ := h; rfl)

namespace Config

variable {c c' : Config X}

theorem underWay_of_phase_ne {φ : Phase} (h : c.inst.orch.state.phase ≠ some φ) :
    c.underWay φ = false := by
  simp [underWay, h]

/-- Before a keygen starts there is no keygen task. -/
theorem Shaped.no_keygen_of_ready (h : c.Shaped)
    (hr : readyForKeygen c.inst.orch.state = true) : ∀ t ∈ c.inst.tasks, t.phase ≠ .keygen := by
  obtain ⟨⟨⟨st, ps, pa, lp, tx₁, tx₂, tx₃, a, k⟩, tasks⟩, pend⟩ := c
  simp only [Config.Shaped] at h hr ⊢
  cases h <;> simp only [readyForKeygen, Bool.false_eq_true] at hr <;> simp [Task.phase]

theorem phase_of_ready {st : ProtocolState X}
    (h : st = .idle ∨ readyForKeygen st = true ∨ readyForSigning st = true) : st.phase = none := by
  cases st <;> first | rfl | simp [readyForKeygen, readyForSigning] at h

/-- A call that is not let in writes nothing. -/
theorem writes_of_refused {chan : ChannelId} {sender : X.PeerId} {msg : CoordinationMessage X}
    (h : ¬ c.inst.orch.Enters msg) : c.writes c' (.call chan sender msg) = [] := by
  cases msg with
  | initiateAux eid ps pa timestamp =>
    rcases handleInitiateAux_cases c.inst.orch chan sender eid pa timestamp with
      ⟨_, -, hr⟩ | ⟨i, ts, hc, -⟩
    · simp only [writes, hr]
    · exact absurd ⟨i, ts, hc⟩ h
  | initiateKeygen eid t n timestamp =>
    cases hr : c.inst.orch.enterKeygen sender eid t n timestamp with
    | error => simp only [writes, hr]
    | ok r => exact absurd ⟨r.2.1, r.2.2, (enterKeygen_eq_ok.1 hr).1⟩ h
  | initiateSigning eid text s timestamp =>
    cases hr : c.inst.orch.enterSigning sender eid text s timestamp with
    | error => simp only [writes, hr]
    | ok r => exact absurd ⟨r.2.1, r.2.2, (enterSigning_eq_ok.1 hr).1⟩ h
  | auxCompleted | keygenCompleted | signingCompleted | protocolFailed => rfl

/-- A call that is let in enters a phase that no task has worked on. -/
theorem metricsStep_of_enters {msg : CoordinationMessage X} {φ : Phase} {ws : List MetricWrite}
    {k : ℕ} (h : c.inst.orch.Enters msg) (hphase : c'.inst.orch.state.phase = some φ)
    (htasks : ∀ t ∈ c'.inst.tasks, t.phase = φ → t.runs φ = true)
    (hws : ∀ w ∈ ws, ∃ v, w = .thresholdValue v) :
    MetricsStep c c' (initiateWrites φ c'.inst.orch.state k ++ ws) := by
  obtain ⟨hinitiated, hended, hgauges⟩ := counts_initiate φ c'.inst.orch.state k hws
  refine .enters φ hinitiated hended hgauges hphase (fun ψ => ?_) fun ψ => ?_
  · exact underWay_of_phase_ne (by rw [phase_of_ready h.ready]; rintro ⟨⟩)
  · by_cases hψ : ψ = φ
    · subst hψ
      simpa [underWay, hphase, or_iff_not_imp_left] using htasks
    · rw [underWay_of_phase_ne (by rw [hphase]; simpa using Ne.symm hψ)]
      simp [hψ]

theorem metricsStep_call (h : c.Shaped) {chan : ChannelId} {sender : X.PeerId}
    {msg : CoordinationMessage X} (hl : c.step (.call chan sender msg) = some c') :
    MetricsStep c c' (c.writes c' (.call chan sender msg)) := by
  obtain ⟨hp, rfl⟩ := step_call_eq_some.1 hl
  rcases c.call_cases hp chan sender msg with ⟨hno, he⟩ |
      ⟨eid, ps, pa, timestamp, i, ts, rfl, hc, he⟩ | ⟨eid, t, n, timestamp, i, ts, rfl, hc, he⟩ |
      ⟨eid, text, s, timestamp, i, ts, rfl, hc, he⟩
  · rw [he]
    exact .quiet (writes_of_refused hno) rfl rfl
  · have hw : c.writes (c.call chan sender (.initiateAux eid ps pa timestamp))
        (.call chan sender (.initiateAux eid ps pa timestamp)) = initiateWrites .aux
          (c.call chan sender (.initiateAux eid ps pa timestamp)).inst.orch.state
          c.inst.orch.participants.length ++ [] := by
      rcases handleInitiateAux_cases c.inst.orch chan sender eid pa timestamp with
        ⟨_, hno, -⟩ | ⟨_, _, -, hr⟩
      · exact absurd hc (hno i ts)
      · simp only [writes, hr, List.append_nil]
    have hshape := h
    rw [Shaped, hc.2.1] at hshape
    obtain ⟨htasks, -⟩ := hshape.of_idle
    have henters : c.inst.orch.Enters (.initiateAux eid ps pa timestamp) := ⟨i, ts, hc⟩
    rw [hw, he]
    refine metricsStep_of_enters henters rfl ?_ (by simp)
    rw [htasks]
    simp [Task.phase, Task.runs]
  · have hno := h.no_keygen_of_ready hc.2.1
    have henters : c.inst.orch.Enters (.initiateKeygen eid t n timestamp) := ⟨i, ts, hc⟩
    rw [he]
    simp only [writes, enterKeygen_eq_ok.2 ⟨hc, rfl⟩]
    exact metricsStep_of_enters henters rfl (fun u hu hφ => absurd hφ (hno u hu)) (by simp)
  · have hno := h.no_signing_of_ready hc.2.1
    have henters : c.inst.orch.Enters (.initiateSigning eid text s timestamp) := ⟨i, ts, hc⟩
    rw [he]
    simp only [writes, enterSigning_eq_ok.2 ⟨hc, rfl⟩]
    rw [← List.append_nil (initiateWrites _ _ _)]
    exact metricsStep_of_enters henters rfl (fun u hu hφ => absurd hφ (hno u hu)) (by simp)

/-- A call that goes on changes at most the tasks, by one whose protocol run has begun. -/
theorem metricsStep_resume {chan : ChannelId} (hl : c.step (.resume chan) = some c') :
    MetricsStep c c' (c.writes c' (.resume chan)) := by
  have hspawn : ∀ {d : Config X} {t : Task X}, d.inst.orch.state = c.inst.orch.state →
      d.inst.tasks = c.inst.tasks ++ [t] → t.runs t.phase = true → d.underWay = c.underWay := by
    intro d t hstate htasks hruns
    funext φ
    by_cases hφ : t.phase = φ
    · subst hφ
      simp [underWay, hstate, htasks, hruns]
    · have hother : (t.phase != φ) = true := bne_iff_ne.2 hφ
      simp [underWay, hstate, htasks, hother]
  rcases resume_cases hl with ⟨_, -, -, rfl⟩ | ⟨_, _, _, _, _, -, -, rfl⟩ |
      ⟨_, _, _, _, _, -, -, rfl⟩ | ⟨_, _, _, _, _, _, -, -, rfl⟩
  · exact .quiet rfl rfl rfl
  · exact .quiet rfl rfl rfl
  · exact .quiet rfl rfl (hspawn rfl rfl rfl)
  · exact .quiet rfl rfl (hspawn rfl rfl rfl)

/-- A task whose protocol run has returned takes its phase from what is under way. -/
theorem underWay_of_returned {t : Task X} (ht : t ∈ c.inst.tasks) (hruns : t.runs t.phase = false) :
    c.underWay t.phase = false := by
  have hnot : (c.inst.tasks.all fun u => u.phase != t.phase || u.runs t.phase) = false :=
    List.all_eq_false.2 ⟨t, ht, by simp [hruns]⟩
  rw [underWay, hnot, Bool.and_false]

/-- The run that returns is that of the phase in progress. -/
theorem metricsStep_finish (h : c.Shaped) {i : ℕ} {r : Outcome X}
    (hl : c.step (.finish i r) = some c') : MetricsStep c c' (c.writes c' (.finish i r)) := by
  obtain ⟨t, t', ht, hf, rfl⟩ := step_finish_eq_some.1 hl
  obtain ⟨⟨e, he⟩, -, -⟩ := h.of_uncompleted ht (Task.finish_uncompleted hf).1
  obtain ⟨hr, hruns, hphase, hreturned⟩ := Task.finish_runs hf
  have hmem : t' ∈ c.inst.tasks.set i t' :=
    List.mem_set (List.getElem?_eq_some_iff.1 ht).1 t'
  refine .returns t.phase (fun ψ => (r.counts_write ψ).1)
    (fun ψ => by rw [hr]; exact (r.counts_write ψ).2.1) (r.counts_write t.phase).2.2 rfl
    (fun ψ => ?_) fun ψ => ?_
  · by_cases hψ : ψ = t.phase
    · subst hψ
      have hall : (c.inst.tasks.all fun u => u.phase != t.phase || u.runs t.phase) = true := by
        refine List.all_eq_true.2 fun u hu => ?_
        obtain ⟨j, hj⟩ := List.mem_iff_getElem?.1 hu
        by_cases hu' : u.phase = t.phase
        · obtain rfl := h.eq_of_phase hj ht hu'
          obtain rfl := Option.some.inj (hj.symm.trans ht)
          simp [hruns]
        · simp [hu']
      simp [underWay, he.phase_eq, hall]
    · rw [underWay_of_phase_ne (by rw [he.phase_eq]; simpa using Ne.symm hψ)]
      simp [hψ]
  · by_cases hψ : ψ = t'.phase
    · rw [hψ]
      exact underWay_of_returned hmem hreturned
    · refine underWay_of_phase_ne ?_
      show c.inst.orch.state.phase ≠ some ψ
      rw [he.phase_eq, ← hphase]
      simpa using Ne.symm hψ

theorem metricsStep_advance (h : c.Shaped) {i : ℕ} (hl : c.step (.advance i) = some c') :
    MetricsStep c c' (c.writes c' (.advance i)) := by
  obtain ⟨t, t', o, ht, ha, rfl⟩ := step_advance_eq_some.1 hl
  have hwrites : c.writes ⟨⟨o, c.inst.tasks.set i t'⟩, c.pending⟩ (.advance i) =
      if t.writesState then updateStateMetrics o.state else [] := by
    simp [writes, ht]
  rw [hwrites]
  cases hw : t.writesState with
  | true =>
    obtain ⟨hu, hruns, hphase, hnone, hidle⟩ := Task.advance_writes ha hw
    obtain ⟨⟨e, he⟩, -, -⟩ := h.of_uncompleted ht hu
    refine .ends (fun ψ => (counts_updateStateMetrics o.state ψ).1)
      (fun ψ => (counts_updateStateMetrics o.state ψ).2) (gaugeWrites_updateStateMetrics o.state)
      hidle (fun ψ => ?_) fun ψ => ?_
    · by_cases hψ : ψ = t.phase
      · rw [hψ]
        exact underWay_of_returned (List.mem_of_getElem? ht) hruns
      · refine underWay_of_phase_ne ?_
        rw [he.phase_eq]
        simpa using Ne.symm hψ
    · refine underWay_of_phase_ne ?_
      show o.state.phase ≠ some ψ
      rw [hnone]
      rintro ⟨⟩
  | false =>
    obtain ⟨hstate, hphase, hruns⟩ := Task.advance_quiet ha hw
    refine .quiet rfl hstate ?_
    funext φ
    have hmap : (c.inst.tasks.set i t').map (fun u => u.phase != φ || u.runs φ) =
        c.inst.tasks.map fun u => u.phase != φ || u.runs φ := by
      obtain ⟨hi, rfl⟩ := List.getElem?_eq_some_iff.1 ht
      rw [List.map_set, hphase, hruns,
        ← List.getElem_map fun u : Task X => u.phase != φ || u.runs φ, List.set_getElem_self]
      simpa using hi
    have hall : ∀ l : List (Task X), (l.all fun u => u.phase != φ || u.runs φ) =
        (l.map fun u => u.phase != φ || u.runs φ).all id := by
      intro l
      rw [List.all_map]
      rfl
    simp only [underWay, hstate, hall, hmap]

/-- Every step of an orchestrator is one of these. -/
theorem metricsStep (h : c.Shaped) {l : Label X} (hl : c.step l = some c') :
    MetricsStep c c' (c.writes c' l) := by
  cases l with
  | call => exact metricsStep_call h hl
  | resume => exact metricsStep_resume hl
  | finish => exact metricsStep_finish h hl
  | advance => exact metricsStep_advance h hl

end Config

/-! ### A process -/

/-- An orchestrator of a process, with the metrics it has still to write. -/
structure MeteredOrchestrator (X : Platform) where
  config : Config X
  writes : List MetricWrite

namespace MeteredOrchestrator

def state (o : MeteredOrchestrator X) : ProtocolState X := o.config.inst.orch.state

/-- The state gauges it has still to write. -/
def gauges (o : MeteredOrchestrator X) : List (String × ℕ) := gaugeWrites o.writes

/-- The orchestrator accounts for a gauge that is set: it is about to reset it, or its last update
has set it. -/
def Explains (o : MeteredOrchestrator X) (label : String) : Prop :=
  o.state ≠ .idle ∧ ((label, 0) ∈ o.gauges ∨ o.gauges = [] ∧ o.state.label = label)

/-- A step that entails writes waits for those before it: a task goes on when it has written its
metrics, and whoever changes the state holds its lock until then. -/
def step (o : MeteredOrchestrator X) (l : Label X) : Option (MeteredOrchestrator X) :=
  (o.config.step l).bind fun c' =>
    let ws := o.config.writes c' l
    if o.writes = [] ∨ ws = [] then some ⟨c', o.writes ++ ws⟩ else none

end MeteredOrchestrator

/-- The orchestrators of a process in the order they were installed, and its metrics. -/
structure Process (X : Platform) where
  orchestrators : List (MeteredOrchestrator X)
  metrics : StateMetrics

/-- The steps of a process: it installs an orchestrator, or one of them takes a step or writes the
next of its metrics. -/
inductive ProcessLabel (X : Platform)
  | install (localPeerId : X.PeerId) (participants : List X.PeerId)
      (partyAssignments : HashMap X.PeerId PartyIndex)
  | step (j : ℕ) (l : Label X)
  | write (j : ℕ)

def Process.step (s : Process X) : ProcessLabel X → Option (Process X)
  | .install p participants partyAssignments =>
      some { s with
        orchestrators := s.orchestrators ++
          [⟨⟨⟨.new p participants partyAssignments, []⟩, none⟩, []⟩] }
  | .step j l =>
      s.orchestrators[j]?.bind fun o => (o.step l).map fun o' =>
        { s with orchestrators := s.orchestrators.set j o' }
  | .write j =>
      s.orchestrators[j]?.bind fun o =>
        match o.writes with
        | [] => none
        | w :: ws => some ⟨s.orchestrators.set j { o with writes := ws }, s.metrics.write w⟩

/-- A process from its start on. -/
def processMachine (X : Platform) : Machine (Process X) (ProcessLabel X) where
  init s := s = ⟨[], .new⟩
  step := Process.step

theorem ProtocolState.label_mem (st : ProtocolState X) : st.label ∈ stateLabels := by
  cases st <;> simp [ProtocolState.label, stateLabels]

theorem ProtocolState.label_eq_idle {st : ProtocolState X} : st.label = "idle" ↔ st = .idle := by
  cases st <;> simp [ProtocolState.label]

/-- An update writes 0 until its last write, which is 1. -/
theorem cons_suffix_showing {st : ProtocolState X} {label : String} {value : ℕ}
    {gs : List (String × ℕ)} (h : (label, value) :: gs <:+ showing st) :
    (value = 0 ∧ gs ≠ []) ∨ (value = 1 ∧ label = st.label ∧ gs = []) := by
  rcases List.suffix_concat_iff.1 h with h | ⟨pre, hpre, hsuffix⟩
  · cases h
  · cases pre with
    | nil =>
      cases hpre
      exact .inr ⟨rfl, rfl, rfl⟩
    | cons first pre =>
      rw [List.cons_append] at hpre
      obtain ⟨rfl, rfl⟩ := List.cons.inj hpre
      obtain ⟨l, -, hl⟩ := List.mem_map.1 (hsuffix.subset List.mem_cons_self)
      cases hl
      exact .inl ⟨rfl, by simp⟩

/-- A write of a metric counts once or sets a gauge, or neither. -/
theorem StateMetrics.write_counters (m : StateMetrics) (w : MetricWrite) (φ : Phase) :
    (m.write w).initiated φ = m.initiated φ + [w].count (.initiated φ) ∧
    (m.write w).completed φ + (m.write w).failed φ =
      m.completed φ + m.failed φ + endWrites [w] φ := by
  cases w with
  | initiated ψ | completed ψ | failed ψ =>
    by_cases h : ψ = φ
    · subst h
      simp only [write, endWrites, Function.update_self]
      simp <;> omega
    · simp [write, endWrites, h, Ne.symm h]
  | _ => simp [write, endWrites]

theorem StateMetrics.write_gauges (m : StateMetrics) (w : MetricWrite) (ws : List MetricWrite) :
    ((m.write w).mpcProtocolState = m.mpcProtocolState ∧ gaugeWrites (w :: ws) = gaugeWrites ws) ∨
    ∃ label value, gaugeWrites (w :: ws) = (label, value) :: gaugeWrites ws ∧
      (m.write w).mpcProtocolState = Function.update m.mpcProtocolState label value := by
  cases w with
  | mpcProtocolState label value => exact .inr ⟨label, value, rfl, rfl⟩
  | _ => exact .inl ⟨rfl, rfl⟩

namespace MeteredOrchestrator

variable {o o' : MeteredOrchestrator X}

/-- A step appends the writes it entails. -/
theorem step_eq_some {l : Label X} (h : o.step l = some o') :
    o.config.step l = some o'.config ∧
      o'.writes = o.writes ++ o.config.writes o'.config l ∧
      (o.writes = [] ∨ o.config.writes o'.config l = []) := by
  obtain ⟨c', hc', h⟩ := Option.bind_eq_some_iff.1 h
  obtain ⟨hw, h⟩ := Option.ite_none_right_eq_some.1 h
  cases h
  exact ⟨hc', rfl, hw⟩

/-- A step leaves the state and the gauges to write as they are, or an update begins. -/
theorem gauges_step (hshaped : o.config.Shaped) {l : Label X} (h : o.step l = some o') :
    (o'.gauges = o.gauges ∧ o'.state = o.state) ∨
      (o'.gauges = showing o'.state ∧ o'.state ≠ .idle) := by
  obtain ⟨hc, hws, hw⟩ := step_eq_some h
  have hgauges : o'.gauges = o.gauges ++ gaugeWrites (o.config.writes o'.config l) := by
    rw [gauges, hws, gaugeWrites_append]
    rfl
  have hbegins : gaugeWrites (o.config.writes o'.config l) = showing o'.state →
      o'.gauges = showing o'.state := by
    intro hshows
    have hempty : o.gauges = [] := by
      rcases hw with hw | hw
      · rw [gauges, hw]
        rfl
      · rw [hw] at hshows
        simp [gaugeWrites, showing] at hshows
    rw [hgauges, hempty, hshows]
    rfl
  cases Config.metricsStep hshaped hc with
  | quiet hnone hstate => exact .inl ⟨by rw [hgauges, hnone]; simp [gaugeWrites], hstate⟩
  | enters φ _ _ hshows hphase =>
    have hne : o'.state ≠ .idle := fun hidle => by
      rw [show o'.config.inst.orch.state = .idle from hidle] at hphase
      cases hphase
    exact .inr ⟨hbegins hshows, hne⟩
  | returns φ _ _ hnone hstate => exact .inl ⟨by rw [hgauges, hnone, List.append_nil], hstate⟩
  | ends _ _ hshows hne => exact .inr ⟨hbegins hshows, hne⟩

end MeteredOrchestrator

namespace Process

/-- The orchestrators that are in the phase with no protocol run of it returned. -/
def underWay (s : Process X) (φ : Phase) : ℕ := s.orchestrators.countP (·.config.underWay φ)

/-- How often a write is still to be made. -/
def owed (s : Process X) (w : MetricWrite) : ℕ := (s.orchestrators.map (·.writes.count w)).sum

/-- No update of the state gauges is in progress. -/
def Settled (s : Process X) : Prop := ∀ o ∈ s.orchestrators, o.gauges = []

/-- At most one update of the state gauges is in progress. -/
def Exclusive (s : Process X) : Prop :=
  s.orchestrators.Pairwise fun o d => o.gauges = [] ∨ d.gauges = []

instance (s : Process X) : Decidable s.Settled :=
  inferInstanceAs (Decidable (∀ o ∈ s.orchestrators, _))

instance (s : Process X) : Decidable s.Exclusive :=
  inferInstanceAs (Decidable (s.orchestrators.Pairwise _))

/-- The state gauges that are set are those of present states, and one is set once an orchestrator
has left `Idle`. -/
def GaugesTell (s : Process X) : Prop :=
  (∀ label, s.metrics.mpcProtocolState label ≠ 0 → s.metrics.mpcProtocolState label = 1 ∧
    ∃ o ∈ s.orchestrators, o.state ≠ .idle ∧ o.state.label = label) ∧
  ((∃ o ∈ s.orchestrators, o.state ≠ .idle) → ∃ label, s.metrics.mpcProtocolState label ≠ 0)

/-- The state gauges are all 0 and every orchestrator is in `Idle`, or they show the present state
of one orchestrator. -/
def GaugesShow (s : Process X) : Prop :=
  ((∀ label, s.metrics.mpcProtocolState label = 0) ∧ ∀ o ∈ s.orchestrators, o.state = .idle) ∨
  ∃ o ∈ s.orchestrators, o.state ≠ .idle ∧
    ∀ label, s.metrics.mpcProtocolState label = if label = o.state.label then 1 else 0

/-- Every gauge that is set has an orchestrator that accounts for it. -/
structure GaugesExplained (s : Process X) : Prop where
  updating : ∀ o ∈ s.orchestrators, o.gauges ≠ [] → o.state ≠ .idle ∧ o.gauges <:+ showing o.state
  explained : ∀ label, s.metrics.mpcProtocolState label ≠ 0 →
    s.metrics.mpcProtocolState label = 1 ∧ ∃ o ∈ s.orchestrators, o.Explains label
  idle : s.metrics.mpcProtocolState "idle" = 0
  shown : (∃ o ∈ s.orchestrators, o.state ≠ .idle) →
    (∃ o ∈ s.orchestrators, o.gauges ≠ []) ∨ ∃ label, s.metrics.mpcProtocolState label ≠ 0

/-- While the updates do not overlap, one that is in progress will reset every gauge that is set,
and otherwise one gauge at most is set. -/
structure Orderly (s : Process X) : Prop where
  resetting : (∃ o ∈ s.orchestrators, o.gauges ≠ []) → ∀ label,
    s.metrics.mpcProtocolState label ≠ 0 → ∃ o ∈ s.orchestrators, (label, 0) ∈ o.gauges
  single : s.Settled → ∀ label label', s.metrics.mpcProtocolState label ≠ 0 →
    s.metrics.mpcProtocolState label' ≠ 0 → label = label'

/-- The invariant of a process: each phase that was initiated has completed, has failed, or is under
way, up to what is still to be counted, and the gauges are explained. -/
structure Accounted (s : Process X) : Prop where
  shaped : ∀ o ∈ s.orchestrators, o.config.Shaped
  counters : ∀ φ, s.metrics.initiated φ + s.owed (.initiated φ) =
    s.metrics.completed φ + s.metrics.failed φ + s.owed (.completed φ) + s.owed (.failed φ) +
      s.underWay φ
  gauges : s.GaugesExplained

/-- No state and no gauge is written, and none is to be written that was not before. -/
structure KeepsGauges (s t : Process X) : Prop where
  metrics : t.metrics.mpcProtocolState = s.metrics.mpcProtocolState
  new : ∀ o ∈ t.orchestrators, (∃ d ∈ s.orchestrators, o.gauges = d.gauges ∧ o.state = d.state) ∨
    o.gauges = [] ∧ o.state = .idle
  old : ∀ d ∈ s.orchestrators, ∃ o ∈ t.orchestrators, o.gauges = d.gauges ∧ o.state = d.state

/-- The orchestrator at `j` becomes `o'`, which has entered a state and has all gauges to write. -/
structure BeginsUpdate (s t : Process X) (j : ℕ) (o o' : MeteredOrchestrator X) : Prop where
  metrics : t.metrics.mpcProtocolState = s.metrics.mpcProtocolState
  before : s.orchestrators[j]? = some o
  after : t.orchestrators = s.orchestrators.set j o'
  gauges : o'.gauges = showing o'.state
  state : o'.state ≠ .idle

/-- The orchestrator at `j` writes the first gauge that it has to write. -/
structure WritesGauge (s t : Process X) (j : ℕ) (o o' : MeteredOrchestrator X) (label : String)
    (value : ℕ) : Prop where
  metrics : t.metrics.mpcProtocolState = Function.update s.metrics.mpcProtocolState label value
  before : s.orchestrators[j]? = some o
  after : t.orchestrators = s.orchestrators.set j o'
  gauges : o.gauges = (label, value) :: o'.gauges
  state : o'.state = o.state

/-- What a step is to the state gauges. -/
inductive GaugesStep (s t : Process X) : Prop
  | keeps (h : s.KeepsGauges t)
  | begins {j : ℕ} {o o' : MeteredOrchestrator X} (h : s.BeginsUpdate t j o o')
  | writes {j : ℕ} {o o' : MeteredOrchestrator X} {label : String} {value : ℕ}
      (h : s.WritesGauge t j o o' label value)

variable {s t : Process X} {j : ℕ} {o o' : MeteredOrchestrator X}

/-- Two orchestrators with updates in progress are one. -/
theorem Exclusive.eq_of_getElem? (h : s.Exclusive) {i : ℕ} {d : MeteredOrchestrator X}
    (hj : s.orchestrators[j]? = some o) (hi : s.orchestrators[i]? = some d) (ho : o.gauges ≠ [])
    (hd : d.gauges ≠ []) : i = j := by
  obtain ⟨hjlt, rfl⟩ := List.getElem?_eq_some_iff.1 hj
  obtain ⟨hilt, rfl⟩ := List.getElem?_eq_some_iff.1 hi
  rcases lt_trichotomy i j with hij | hij | hij
  · exact absurd (List.pairwise_iff_getElem.1 h i j hilt hjlt hij) (by simp [ho, hd])
  · exact hij
  · exact absurd (List.pairwise_iff_getElem.1 h j i hjlt hilt hij) (by simp [ho, hd])

/-- A gauge that is set is one of those that an update resets. -/
theorem GaugesExplained.label_mem (h : s.GaugesExplained) {label : String}
    (hset : s.metrics.mpcProtocolState label ≠ 0) : label ∈ stateLabels := by
  obtain ⟨-, o, ho, -, hreset | ⟨-, rfl⟩⟩ := h.explained label hset
  · have hmem := (h.updating o ho (List.ne_nil_of_mem hreset)).2.subset hreset
    simpa [showing] using hmem
  · exact o.state.label_mem

/-- The orchestrator that has taken a step is one of the process. -/
theorem mem_of_set (hj : s.orchestrators[j]? = some o)
    (ht : t.orchestrators = s.orchestrators.set j o') : o' ∈ t.orchestrators := by
  rw [ht]
  exact List.mem_set (List.getElem?_eq_some_iff.1 hj).1 o'

theorem keepsGauges_of_set {m : StateMetrics} (hj : s.orchestrators[j]? = some o)
    (hm : m.mpcProtocolState = s.metrics.mpcProtocolState) (hgauges : o'.gauges = o.gauges)
    (hstate : o'.state = o.state) : s.KeepsGauges ⟨s.orchestrators.set j o', m⟩ where
  metrics := hm
  new := by
    intro d hd
    rcases List.mem_or_eq_of_mem_set hd with hd | rfl
    · exact .inl ⟨d, hd, rfl, rfl⟩
    · exact .inl ⟨o, List.mem_of_getElem? hj, hgauges, hstate⟩
  old := by
    intro d hd
    refine Lists.exists_mem_set hj ⟨d, hd, rfl, rfl⟩ ?_
    rintro ⟨hg, hs⟩
    exact ⟨hgauges.trans hg, hstate.trans hs⟩

theorem gaugesStep_of_step (hshaped : o.config.Shaped) {l : Label X}
    (hj : s.orchestrators[j]? = some o) (hl : o.step l = some o') :
    GaugesStep s { s with orchestrators := s.orchestrators.set j o' } := by
  rcases MeteredOrchestrator.gauges_step hshaped hl with ⟨hgauges, hstate⟩ | ⟨hgauges, hstate⟩
  · exact .keeps (keepsGauges_of_set hj rfl hgauges hstate)
  · exact .begins ⟨rfl, hj, rfl, hgauges, hstate⟩

theorem gaugesStep_of_write {w : MetricWrite} {ws : List MetricWrite}
    (hj : s.orchestrators[j]? = some o) (hw : o.writes = w :: ws) :
    GaugesStep s ⟨s.orchestrators.set j { o with writes := ws }, s.metrics.write w⟩ := by
  rcases s.metrics.write_gauges w ws with ⟨hm, hgauges⟩ | ⟨label, value, hgauges, hm⟩
  · have hsame : gaugeWrites ws = o.gauges := by rw [MeteredOrchestrator.gauges, hw, hgauges]
    exact .keeps (keepsGauges_of_set hj hm hsame rfl)
  · exact .writes ⟨hm, hj, rfl, by rw [MeteredOrchestrator.gauges, hw, hgauges]; rfl, rfl⟩

/-! ### The gauges are explained -/

theorem GaugesExplained.keep (h : s.GaugesExplained) (hk : s.KeepsGauges t) :
    t.GaugesExplained where
  updating := by
    intro o ho hne
    rcases hk.new o ho with ⟨d, hd, hgauges, hstate⟩ | ⟨hnone, -⟩
    · rw [hgauges] at hne ⊢
      rw [hstate]
      exact h.updating d hd hne
    · exact absurd hnone hne
  explained := by
    intro label hset
    rw [hk.metrics] at hset ⊢
    obtain ⟨hone, d, hd, hex⟩ := h.explained label hset
    obtain ⟨o, ho, hgauges, hstate⟩ := hk.old d hd
    refine ⟨hone, o, ho, ?_⟩
    rw [MeteredOrchestrator.Explains, hgauges, hstate]
    exact hex
  idle := by
    rw [hk.metrics]
    exact h.idle
  shown := by
    rintro ⟨o, ho, hne⟩
    rw [hk.metrics]
    rcases hk.new o ho with ⟨d, hd, -, hstate⟩ | ⟨-, hidle⟩
    · refine (h.shown ⟨d, hd, by rwa [← hstate]⟩).imp_left ?_
      rintro ⟨d, hd, hgauges⟩
      obtain ⟨o, ho, hsame, -⟩ := hk.old d hd
      exact ⟨o, ho, by rwa [hsame]⟩
    · exact absurd hidle hne

/-- Every gauge that is set is one that the update will reset. -/
theorem GaugesExplained.begin (h : s.GaugesExplained) (hb : s.BeginsUpdate t j o o') :
    t.GaugesExplained where
  updating := by
    intro d hd hne
    rw [hb.after] at hd
    rcases List.mem_or_eq_of_mem_set hd with hd | rfl
    · exact h.updating d hd hne
    · exact ⟨hb.state, hb.gauges ▸ List.suffix_rfl⟩
  explained := by
    intro label hset
    rw [hb.metrics] at hset ⊢
    refine ⟨(h.explained label hset).1, o', mem_of_set hb.before hb.after, hb.state, .inl ?_⟩
    rw [hb.gauges]
    exact List.mem_append_left _ (List.mem_map_of_mem (h.label_mem hset))
  idle := by
    rw [hb.metrics]
    exact h.idle
  shown := fun _ => .inl ⟨o', mem_of_set hb.before hb.after, by simp [hb.gauges, showing]⟩

/-- A write sets a gauge to 0 and is followed by others, or sets the gauge of the state to 1 and is
the last one. -/
theorem GaugesExplained.resets_or_sets (h : s.GaugesExplained) {label : String} {value : ℕ}
    (hw : s.WritesGauge t j o o' label value) : o.state ≠ .idle ∧
      ((value = 0 ∧ o'.gauges ≠ []) ∨ (value = 1 ∧ label = o.state.label ∧ o'.gauges = [])) := by
  obtain ⟨hne, hsuffix⟩ := h.updating o (List.mem_of_getElem? hw.before) (by simp [hw.gauges])
  rw [hw.gauges] at hsuffix
  exact ⟨hne, cons_suffix_showing hsuffix⟩

/-- Another gauge that the orchestrator was about to reset it is still about to reset. -/
theorem WritesGauge.reset_later {written : String} {value : ℕ}
    (hw : s.WritesGauge t j o o' written value) {label : String} (hlabel : label ≠ written)
    (h : (label, 0) ∈ o.gauges) : (label, 0) ∈ o'.gauges := by
  rw [hw.gauges, List.mem_cons, Prod.mk.injEq] at h
  exact h.resolve_left fun he => hlabel he.1

/-- The gauge that is written is reset, or it is that of the state; the others are accounted for as
before. -/
theorem GaugesExplained.write (h : s.GaugesExplained) {written : String} {value : ℕ}
    (hw : s.WritesGauge t j o o' written value) : t.GaugesExplained := by
  have hmem : o' ∈ t.orchestrators := mem_of_set hw.before hw.after
  obtain ⟨hne, hlast⟩ := h.resets_or_sets hw
  have hne' : o'.state ≠ .idle := hw.state ▸ hne
  refine ⟨fun d hd hd' => ?_, fun label hset => ?_, ?_, fun _ => ?_⟩
  · rw [hw.after] at hd
    rcases List.mem_or_eq_of_mem_set hd with hd | rfl
    · exact h.updating d hd hd'
    · have hsuffix := (h.updating o (List.mem_of_getElem? hw.before) (by simp [hw.gauges])).2
      rw [hw.gauges] at hsuffix
      exact ⟨hne', hw.state ▸ (List.suffix_cons _ _).trans hsuffix⟩
  · by_cases hlabel : label = written
    · subst hlabel
      rw [hw.metrics, Function.update_self] at hset ⊢
      rcases hlast with ⟨rfl, -⟩ | ⟨rfl, rfl, hnil⟩
      · exact absurd rfl hset
      · exact ⟨rfl, o', hmem, hne', .inr ⟨hnil, hw.state ▸ rfl⟩⟩
    · rw [hw.metrics, Function.update_of_ne hlabel] at hset ⊢
      obtain ⟨hone, hex⟩ := h.explained label hset
      rw [hw.after]
      refine ⟨hone, Lists.exists_mem_set hw.before hex ?_⟩
      rintro ⟨-, hreset | ⟨hnil, -⟩⟩
      · exact ⟨hne', .inl (hw.reset_later hlabel hreset)⟩
      · rw [hw.gauges] at hnil
        cases hnil
  · rw [hw.metrics, Function.update_apply]
    split_ifs with hidle
    · rcases hlast with ⟨rfl, -⟩ | ⟨-, rfl, -⟩
      · rfl
      · exact absurd (ProtocolState.label_eq_idle.1 hidle.symm) hne
    · exact h.idle
  · rcases hlast with ⟨-, hrest⟩ | ⟨rfl, -, -⟩
    · exact .inl ⟨o', hmem, hrest⟩
    · exact .inr ⟨written, by rw [hw.metrics, Function.update_self]; exact one_ne_zero⟩

theorem GaugesExplained.step (h : s.GaugesExplained) (hstep : GaugesStep s t) :
    t.GaugesExplained := by
  cases hstep with
  | keeps hk => exact h.keep hk
  | begins hb => exact h.begin hb
  | writes hw => exact h.write hw

/-! ### Updates that do not overlap -/

theorem Orderly.keep (h : s.Orderly) (hk : s.KeepsGauges t) : t.Orderly where
  resetting := by
    rintro ⟨o, ho, hne⟩ label hset
    rw [hk.metrics] at hset
    rcases hk.new o ho with ⟨d, hd, hgauges, -⟩ | ⟨hnone, -⟩
    · obtain ⟨d, hd, hreset⟩ := h.resetting ⟨d, hd, hgauges ▸ hne⟩ label hset
      obtain ⟨o, ho, hsame, -⟩ := hk.old d hd
      exact ⟨o, ho, hsame ▸ hreset⟩
    · exact absurd hnone hne
  single := by
    intro hsettled
    rw [hk.metrics]
    refine h.single fun d hd => ?_
    obtain ⟨o, ho, hsame, -⟩ := hk.old d hd
    rw [← hsame]
    exact hsettled o ho

/-- Whatever is set when an update begins it will reset. -/
theorem Orderly.begin (hexplained : s.GaugesExplained) (hb : s.BeginsUpdate t j o o') :
    t.Orderly where
  resetting := by
    intro _ label hset
    rw [hb.metrics] at hset
    refine ⟨o', mem_of_set hb.before hb.after, ?_⟩
    rw [hb.gauges]
    exact List.mem_append_left _ (List.mem_map_of_mem (hexplained.label_mem hset))
  single := by
    intro hsettled
    have hnone := hsettled o' (mem_of_set hb.before hb.after)
    simp [hb.gauges, showing] at hnone

/-- Of the gauges that are set a write may reset one, and no other update is in progress at the
last write. -/
theorem Orderly.write (h : s.Orderly) (hexplained : s.GaugesExplained) (hone : s.Exclusive)
    {written : String} {value : ℕ} (hw : s.WritesGauge t j o o' written value) : t.Orderly := by
  have hpending : o.gauges ≠ [] := by simp [hw.gauges]
  have hothers : ∀ label ≠ written, s.metrics.mpcProtocolState label ≠ 0 →
      ∃ d ∈ t.orchestrators, (label, 0) ∈ d.gauges := by
    intro label hlabel hset
    rw [hw.after]
    exact Lists.exists_mem_set hw.before
      (h.resetting ⟨o, List.mem_of_getElem? hw.before, hpending⟩ label hset) (hw.reset_later hlabel)
  refine ⟨?_, fun hsettled => ?_⟩
  · rintro ⟨d, hd, hd'⟩ label hset
    rw [hw.metrics, Function.update_apply] at hset
    split_ifs at hset with hlabel
    · rcases (hexplained.resets_or_sets hw).2 with ⟨rfl, -⟩ | ⟨-, -, hnil⟩
      · exact absurd rfl hset
      · obtain ⟨i, hi⟩ := List.mem_iff_getElem?.1 hd
        rw [hw.after] at hi
        by_cases hij : j = i
        · subst hij
          rw [List.getElem?_set_self (List.getElem?_eq_some_iff.1 hw.before).1] at hi
          obtain rfl := Option.some.inj hi
          exact absurd hnil hd'
        · rw [List.getElem?_set_ne hij] at hi
          exact absurd (hone.eq_of_getElem? hw.before hi hpending hd').symm hij
    · exact hothers label hlabel hset
  · have honly : ∀ label, t.metrics.mpcProtocolState label ≠ 0 → label = written := by
      intro label hset
      by_contra hlabel
      rw [hw.metrics, Function.update_of_ne hlabel] at hset
      obtain ⟨d, hd, hreset⟩ := hothers label hlabel hset
      rw [hsettled d hd] at hreset
      cases hreset
    intro label label' hset hset'
    rw [honly label hset, honly label' hset']

theorem Orderly.step (h : s.Orderly) (hexplained : s.GaugesExplained) (hone : s.Exclusive)
    (hstep : GaugesStep s t) : t.Orderly := by
  cases hstep with
  | keeps hk => exact h.keep hk
  | begins hb => exact .begin hexplained hb
  | writes hw => exact h.write hexplained hone hw

/-! ### The counters -/

/-- What a step of one orchestrator does to the number of those under way. -/
theorem underWay_set (hj : s.orchestrators[j]? = some o) (o' : MeteredOrchestrator X) (φ : Phase)
    (m : StateMetrics) : (⟨s.orchestrators.set j o', m⟩ : Process X).underWay φ +
      (o.config.underWay φ).toNat = s.underWay φ + (o'.config.underWay φ).toNat := by
  have hsum : ∀ os : List (MeteredOrchestrator X), os.countP (·.config.underWay φ) =
      (os.map fun o => (o.config.underWay φ).toNat).sum := by
    intro os
    induction os with
    | nil => rfl
    | cons o os ih =>
      rw [List.countP_cons, List.map_cons, List.sum_cons, ih]
      cases o.config.underWay φ <;> simp [add_comm]
  rw [underWay, underWay, hsum, hsum]
  exact Lists.sum_map_set hj o' _

/-- What is owed changes by what its orchestrator owes. -/
theorem owed_set (hj : s.orchestrators[j]? = some o) (o' : MeteredOrchestrator X) (w : MetricWrite)
    (m : StateMetrics) : (⟨s.orchestrators.set j o', m⟩ : Process X).owed w + o.writes.count w =
      s.owed w + o'.writes.count w :=
  Lists.sum_map_set hj o' _

theorem toNat_beq (φ ψ : Phase) : (φ == ψ).toNat = if φ = ψ then 1 else 0 := by
  cases φ <;> cases ψ <;> rfl

/-- What a step adds to the phases initiated it adds to those completed, failed or under way. -/
theorem counters_step (hshaped : o.config.Shaped) (hj : s.orchestrators[j]? = some o) {l : Label X}
    (hl : o.step l = some o') {φ : Phase}
    (h : s.metrics.initiated φ + s.owed (.initiated φ) = s.metrics.completed φ +
      s.metrics.failed φ + s.owed (.completed φ) + s.owed (.failed φ) + s.underWay φ) :
    s.metrics.initiated φ + Process.owed ⟨s.orchestrators.set j o', s.metrics⟩ (.initiated φ) =
      s.metrics.completed φ + s.metrics.failed φ +
        Process.owed ⟨s.orchestrators.set j o', s.metrics⟩ (.completed φ) +
        Process.owed ⟨s.orchestrators.set j o', s.metrics⟩ (.failed φ) +
        Process.underWay ⟨s.orchestrators.set j o', s.metrics⟩ φ := by
  obtain ⟨hc, hws, -⟩ := MeteredOrchestrator.step_eq_some hl
  have hway := underWay_set hj o' φ s.metrics
  have hinitiated := owed_set hj o' (.initiated φ) s.metrics
  have hcompleted := owed_set hj o' (.completed φ) s.metrics
  have hfailed := owed_set hj o' (.failed φ) s.metrics
  rw [hws, List.count_append] at hinitiated hcompleted hfailed
  cases Config.metricsStep hshaped hc with
  | quiet hnone hstate hsame =>
    rw [hnone, List.count_nil] at hinitiated hcompleted hfailed
    rw [hsame] at hway
    omega
  | enters ψ hstarts hends _ _ hbefore hafter =>
    have hnone := hends φ
    rw [hbefore, hafter, toNat_beq, Bool.toNat_false] at hway
    rw [hstarts] at hinitiated
    rw [endWrites] at hnone
    omega
  | returns ψ hstarts hends _ _ hbefore hafter =>
    have hone := hends φ
    rw [hbefore, hafter, toNat_beq, Bool.toNat_false] at hway
    rw [hstarts] at hinitiated
    rw [endWrites] at hone
    omega
  | ends hstarts hends _ _ hbefore hafter =>
    have hnone := hends φ
    rw [hbefore, hafter] at hway
    rw [hstarts] at hinitiated
    rw [endWrites] at hnone
    omega

/-- A write that is made is no longer owed. -/
theorem counters_write {w : MetricWrite} {ws : List MetricWrite}
    (hj : s.orchestrators[j]? = some o) (hw : o.writes = w :: ws) {φ : Phase}
    (ht : t = ⟨s.orchestrators.set j { o with writes := ws }, s.metrics.write w⟩)
    (h : s.metrics.initiated φ + s.owed (.initiated φ) = s.metrics.completed φ +
      s.metrics.failed φ + s.owed (.completed φ) + s.owed (.failed φ) + s.underWay φ) :
    t.metrics.initiated φ + t.owed (.initiated φ) = t.metrics.completed φ + t.metrics.failed φ +
      t.owed (.completed φ) + t.owed (.failed φ) + t.underWay φ := by
  have hmade : ∀ v, t.owed v + [w].count v = s.owed v := by
    intro v
    have howed : t.owed v + (w :: ws).count v = s.owed v + ws.count v := by
      rw [ht, ← hw]
      exact owed_set hj { o with writes := ws } v (s.metrics.write w)
    rw [← List.singleton_append, List.count_append] at howed
    omega
  have hway : t.underWay φ = s.underWay φ := by
    rw [ht]
    exact Nat.add_right_cancel (underWay_set hj { o with writes := ws } φ (s.metrics.write w))
  have hinitiated := hmade (.initiated φ)
  have hcompleted := hmade (.completed φ)
  have hfailed := hmade (.failed φ)
  obtain ⟨hstarts, hends⟩ := s.metrics.write_counters w φ
  rw [endWrites] at hends
  have hm : t.metrics = s.metrics.write w := by rw [ht]
  rw [hm, hway]
  omega

/-- A step of a process is one of these to the gauges, and keeps the invariant. -/
theorem Accounted.step (h : s.Accounted) {l : ProcessLabel X} (hl : s.step l = some t) :
    GaugesStep s t ∧ t.Accounted := by
  cases l with
  | install p ps pa =>
    cases hl
    have hstep : GaugesStep s { s with
        orchestrators := s.orchestrators ++ [⟨⟨⟨.new p ps pa, []⟩, none⟩, []⟩] } := by
      refine .keeps ⟨rfl, fun o ho => ?_, fun d hd => ⟨d, List.mem_append_left _ hd, rfl, rfl⟩⟩
      rcases List.mem_append.1 ho with ho | ho
      · exact .inl ⟨o, ho, rfl, rfl⟩
      · rw [List.mem_singleton.1 ho]
        exact .inr ⟨rfl, rfl⟩
    refine ⟨hstep, fun o ho => ?_, fun φ => ?_, h.gauges.step hstep⟩
    · rcases List.mem_append.1 ho with ho | ho
      · exact h.shaped o ho
      · rw [List.mem_singleton.1 ho]
        exact .idle
    · have hidle : Config.underWay (X := X) ⟨⟨.new p ps pa, []⟩, none⟩ φ = false :=
        Config.underWay_of_phase_ne (by rintro ⟨⟩)
      simpa [underWay, owed, hidle] using h.counters φ
  | step j l =>
    obtain ⟨o, hj, hl⟩ := Option.bind_eq_some_iff.1 hl
    obtain ⟨o', ho', rfl⟩ := Option.map_eq_some_iff.1 hl
    have hshaped := h.shaped o (List.mem_of_getElem? hj)
    have hstep := gaugesStep_of_step hshaped hj ho'
    refine ⟨hstep, fun d hd => ?_, fun φ => counters_step hshaped hj ho' (h.counters φ),
      h.gauges.step hstep⟩
    rcases List.mem_or_eq_of_mem_set hd with hd | rfl
    · exact h.shaped d hd
    · exact hshaped.step (MeteredOrchestrator.step_eq_some ho').1
  | write j =>
    obtain ⟨o, hj, hl⟩ := Option.bind_eq_some_iff.1 hl
    cases hw : o.writes with
    | nil => simp [hw] at hl
    | cons w ws =>
      obtain rfl : ⟨s.orchestrators.set j { o with writes := ws }, s.metrics.write w⟩ = t := by
        simpa [hw] using hl
      have hstep := gaugesStep_of_write hj hw
      refine ⟨hstep, fun d hd => ?_, fun φ => counters_write hj hw rfl (h.counters φ),
        h.gauges.step hstep⟩
      rcases List.mem_or_eq_of_mem_set hd with hd | rfl
      · exact h.shaped d hd
      · exact h.shaped o (List.mem_of_getElem? hj)

theorem accounted_new : (⟨[], .new⟩ : Process X).Accounted where
  shaped := by simp
  counters := by simp [StateMetrics.new, underWay, owed]
  gauges := ⟨by simp, by simp [StateMetrics.new], rfl, by simp⟩

/-- Once no update is in progress, the gauges tell of present states. -/
theorem GaugesExplained.tell (h : s.GaugesExplained) (hs : s.Settled) : s.GaugesTell := by
  refine ⟨fun label hset => ?_, fun hne => ?_⟩
  · obtain ⟨hone, o, ho, hne, hreset | ⟨-, hlabel⟩⟩ := h.explained label hset
    · rw [hs o ho] at hreset
      cases hreset
    · exact ⟨hone, o, ho, hne, hlabel⟩
  · rcases h.shown hne with ⟨o, ho, hpending⟩ | hset
    · exact absurd (hs o ho) hpending
    · exact hset

/-- If one gauge at most is set, the gauges show one state. -/
theorem GaugesTell.shows (h : s.GaugesTell) (hsingle : ∀ label label',
    s.metrics.mpcProtocolState label ≠ 0 → s.metrics.mpcProtocolState label' ≠ 0 →
      label = label') : s.GaugesShow := by
  by_cases hidle : ∃ o ∈ s.orchestrators, o.state ≠ .idle
  · obtain ⟨label, hset⟩ := h.2 hidle
    obtain ⟨hone, o, ho, hne, rfl⟩ := h.1 label hset
    refine .inr ⟨o, ho, hne, fun label => ?_⟩
    split_ifs with hlabel
    · rw [hlabel, hone]
    · by_contra hother
      exact hlabel (hsingle label o.state.label hother hset)
  · refine .inl ⟨fun label => ?_, fun o ho => ?_⟩
    · by_contra hset
      obtain ⟨-, o, ho, hne, -⟩ := h.1 label hset
      exact hidle ⟨o, ho, hne⟩
    · by_contra hne
      exact hidle ⟨o, ho, hne⟩

end Process

open Process

/-- In every run of a process, over all the orchestrators it has installed and however their writes
interleave: each phase that was initiated has completed, has failed, or is under way, up to what is
still to be counted, and the gauge of `Idle` is never set. Whenever no update of the gauges is in
progress, those that are set belong to present states of orchestrators that have left `Idle`, and
one is set if there is such an orchestrator; and if no two updates have overlapped, the gauges are
all 0 and every orchestrator is in `Idle`, or they show the state of one orchestrator. -/
theorem metrics_account {s : Process X} {ls : List (ProcessLabel X)}
    (hr : (processMachine X).run ⟨[], .new⟩ ls = some s) :
    (∀ φ, s.metrics.initiated φ + s.owed (.initiated φ) = s.metrics.completed φ +
      s.metrics.failed φ + s.owed (.completed φ) + s.owed (.failed φ) + s.underWay φ) ∧
    s.metrics.mpcProtocolState "idle" = 0 ∧
    (s.Settled → s.GaugesTell ∧
      ((processMachine X).Meets (fun t _ => t.Exclusive) ⟨[], .new⟩ ls → s.GaugesShow)) := by
  have hinv : s.Accounted := Machine.run_preserves (M := processMachine X)
    (fun _ _ _ h hl => (h.step hl).2) accounted_new hr
  refine ⟨hinv.counters, hinv.gauges.idle, fun hs => ⟨hinv.gauges.tell hs, fun hone => ?_⟩⟩
  have horderly : s.Accounted ∧ s.Orderly := by
    refine Machine.run_preserves_of_meets (M := processMachine X)
      (I := fun t => t.Accounted ∧ t.Orderly) (fun t l u h he hl => ?_)
      ⟨accounted_new, by simp, by simp [StateMetrics.new]⟩ hone hr
    obtain ⟨hstep, hu⟩ := h.1.step hl
    exact ⟨hu, h.2.step h.1.gauges he hstep⟩
  exact (hinv.gauges.tell hs).shows (horderly.2.single hs)

/-! ### A process with two orchestrators -/

namespace TwoOrchestrators

def assignments : HashMap String PartyIndex := .ofEntries [("a", 0), ("b", 1), ("c", 2)]

/-- The node `b` installs an orchestrator for the assignments. -/
def install : ProcessLabel .plain := .install "b" ["a", "b", "c"] assignments

/-- The orchestrator is told to run an aux generation. -/
def initiateAux (j : ℕ) (executionId : List UInt8) : ProcessLabel .plain :=
  .step j (.call j "a" (.initiateAux executionId ["a", "b", "c"] assignments ⟨0⟩))

/-- The first orchestrator starts a keygen before it has an aux info and writes its metrics; then
the node gets another one. -/
def stuckKeygen : List (ProcessLabel .plain) :=
  [install, .step 0 (.call 0 "a" (.initiateKeygen [9] 2 3 ⟨0⟩))] ++
  List.replicate 13 (.write 0) ++ [.step 0 (.resume 0), install]

/-- The aux generation of the first orchestrator fails when the second is installed. Its task has
reset the gauges when that of the second begins, and sets its own afterwards. -/
def overlap : List (ProcessLabel .plain) :=
  [install, initiateAux 0 [7]] ++ List.replicate 11 (.write 0) ++
  [install, .step 0 (.finish 0 (.aux (.error "eof"))), .write 0, .step 0 (.advance 0)] ++
  List.replicate 8 (.write 0) ++ initiateAux 1 [8] :: List.replicate 11 (.write 1) ++ [.write 0]

end TwoOrchestrators

open TwoOrchestrators

/-- The keygen stays under way, and the gauges show it although the installed orchestrator is
idle. -/
theorem stuck_keygen_under_way : ∃ s o,
    (processMachine .plain).run ⟨[], .new⟩ stuckKeygen = some s ∧
      s.orchestrators[1]? = some o ∧ o.state = .idle ∧
      s.metrics.initiated .keygen = 1 ∧ s.underWay .keygen = 1 ∧ s.GaugesShow ∧
      s.metrics.mpcProtocolState "keygen" = 1 ∧ s.metrics.mpcProtocolState "idle" = 0 := by
  obtain ⟨s, o, hs, ho, hidle, hinitiated, hkeygen, howed, hcompleted, hfailed, hsettled⟩ :
      ∃ (s : Process .plain) (o : MeteredOrchestrator .plain),
        (processMachine .plain).run ⟨[], .new⟩ stuckKeygen = some s ∧
        s.orchestrators[1]? = some o ∧ o.state = .idle ∧
        s.metrics.initiated .keygen = 1 ∧ s.metrics.mpcProtocolState "keygen" = 1 ∧
        (∀ w, s.owed w = 0) ∧ s.metrics.completed .keygen = 0 ∧ s.metrics.failed .keygen = 0 ∧
        s.Settled :=
    ⟨_, _, rfl, rfl, rfl, rfl, rfl, fun _ => rfl, rfl, rfl, by decide⟩
  obtain ⟨hcounters, hnever, hgauges⟩ := metrics_account hs
  have hcount := hcounters .keygen
  rw [howed, howed, howed] at hcount
  exact ⟨s, o, hs, ho, hidle, hinitiated, by omega, (hgauges hsettled).2 (by decide), hkeygen,
    hnever⟩

/-- When two updates overlap, the gauges of two states may stay set. -/
theorem overlapping_updates : ∃ s, (processMachine .plain).run ⟨[], .new⟩ overlap = some s ∧
    s.Settled ∧ s.metrics.mpcProtocolState "failed" = 1 ∧
      s.metrics.mpcProtocolState "aux_generation" = 1 :=
  ⟨_, rfl, by decide, rfl, rfl⟩

end P2pMpc
