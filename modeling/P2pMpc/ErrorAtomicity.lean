import P2pMpc.PhaseShape

/-!
# What a failing handler leaves behind

`handle_initiate_aux` makes all its checks before its first write. `handle_initiate_keygen` and
`handle_initiate_signing` write the state and only then look for the aux info and the key share, so
an error of the second kind leaves the new state without a task that could ever leave it. A message
that does this is `HalfApplied`; `error_atomic_iff` says that nothing else goes wrong, and
`halfApplied_stuck` that the state left behind is final.
-/

namespace P2pMpc

open StateMachine

variable {X : Platform}

namespace MPCOrchestrator

/-- If the handling of the message fails, the orchestrator is as before and no task is spawned. -/
def ErrorAtomic (o : MPCOrchestrator X) (chan : ChannelId) (sender : X.PeerId)
    (msg : CoordinationMessage X) : Prop :=
  ∀ e, (o.handleCoordinationMessage chan sender msg).result = .error e →
    (o.handleCoordinationMessage chan sender msg).orch = o ∧
      (o.handleCoordinationMessage chan sender msg).spawned = none

/-- The message passes the checks made before the state write and fails one made after it. -/
def HalfApplied (o : MPCOrchestrator X) : CoordinationMessage X → Prop
  | .initiateKeygen _ threshold totalParties timestamp =>
      (∃ i ts, o.KeygenChecks threshold totalParties timestamp i ts) ∧ o.auxInfo = none
  | .initiateSigning _ _ signers timestamp =>
      (∃ i ts, o.SigningChecks timestamp i ts ∧ i ∈ signers) ∧
        (o.auxInfo = none ∨ o.keyShare = none)
  | _ => False

section Spec

variable {o : MPCOrchestrator X} {chan : ChannelId} {sender : X.PeerId}
  {executionId message : List UInt8} {threshold totalParties : UInt16}
  {signers : List PartyIndex} {timestamp : SystemTime}

theorem KeygenChecks.state_ne {i : PartyIndex} {ts : UInt64}
    (h : o.KeygenChecks threshold totalParties timestamp i ts) :
    { o with state := .keygen sender executionId threshold } ≠ o := by
  intro he
  have hr := h.2.1
  rw [← he] at hr
  cases hr

theorem SigningChecks.state_ne {i : PartyIndex} {ts : UInt64}
    (h : o.SigningChecks timestamp i ts) :
    { o with state := .signing sender executionId message signers } ≠ o := by
  intro he
  have hr := h.2.1
  rw [← he] at hr
  cases hr

end Spec

/-- A failing call is without effect exactly when the message is not half applied. -/
theorem error_atomic_iff (o : MPCOrchestrator X) (chan : ChannelId) (sender : X.PeerId)
    (msg : CoordinationMessage X) : o.ErrorAtomic chan sender msg ↔ ¬ o.HalfApplied msg := by
  unfold ErrorAtomic
  cases msg with
  | initiateAux eid ps pa timestamp =>
    simp only [handleCoordinationMessage, HalfApplied, not_false_eq_true, iff_true]
    rcases handleInitiateAux_cases o chan sender eid pa timestamp with ⟨e, -, he⟩ | ⟨i, ts, -, he⟩
    · simp [he]
    · simp [he]
  | initiateKeygen eid t n timestamp =>
    simp only [handleCoordinationMessage, HalfApplied]
    rcases handleInitiateKeygen_cases o chan sender eid t n timestamp with
      ⟨e, hc, he⟩ | ⟨i, ts, hc, ⟨ha, he⟩ | ⟨a, ha, he⟩⟩
    · simp [he, hc]
    · refine iff_of_false (fun h => ?_) fun h => h ⟨⟨i, ts, hc⟩, ha⟩
      rw [he] at h
      exact hc.state_ne (h _ rfl).1
    · simp [he, ha]
  | initiateSigning eid m s timestamp =>
    simp only [handleCoordinationMessage, HalfApplied]
    rcases handleInitiateSigning_cases o chan sender eid m s timestamp with
      ⟨e, hc, he⟩ | ⟨i, ts, hc, ⟨hi, he⟩ | ⟨hi, hcells, he⟩ | ⟨-, a, share, ha, hk, he⟩⟩
    · simp [he, hc]
    · -- the local index is unique, so an observer is no signer
      refine iff_of_true (by simp [he]) ?_
      rintro ⟨⟨j, ts', hj, hjs⟩, -⟩
      have hij : i = j := Option.some.inj (hc.2.2.symm.trans hj.2.2)
      exact hi (hij ▸ hjs)
    · refine iff_of_false (fun h => ?_) fun h => h ⟨⟨i, ts, hc, hi⟩, hcells⟩
      rw [he] at h
      exact hc.state_ne (h _ rfl).1
    · simp [he, ha, hk]
  | auxCompleted | keygenCompleted | signingCompleted | protocolFailed =>
    simp [handleCoordinationMessage, HalfApplied]

end MPCOrchestrator

/-! ### Half-applied messages in a run -/

open MPCOrchestrator

/-- In a run, only an idle orchestrator and one whose keygen task has yet to store its share can
half-apply a message. -/
theorem Config.Shaped.halfApplied {c : Config X} (h : c.Shaped) {msg : CoordinationMessage X}
    (hm : c.inst.orch.HalfApplied msg) :
    c.inst.orch.state = .idle ∨
      ∃ pk, c.inst.orch.state = .keygenCompleted pk ∧ c.inst.orch.keyShare = none := by
  simp only [Config.Shaped] at h
  cases msg with
  | initiateKeygen eid t n timestamp =>
    obtain ⟨⟨i, ts, hc⟩, ha⟩ := hm
    have hr := hc.2.1
    generalize c.inst.orch.state = st at h hr
    cases st <;> simp only [readyForKeygen, Bool.false_eq_true] at hr
    · exact .inl rfl
    · obtain ⟨_, _, _, _, -, -, ha', -⟩ := h.of_auxCompleted
      rw [ha] at ha'
      cases ha'
  | initiateSigning eid m s timestamp =>
    obtain ⟨⟨i, ts, hc, -⟩, hcells⟩ := hm
    have hr := hc.2.1
    generalize c.inst.orch.state = st at h hr
    cases st <;> simp only [readyForSigning, Bool.false_eq_true] at hr
    · exact .inl rfl
    · obtain ⟨_, _, _, _, _, _, _, _, _, -, -, -, -, ha⟩ := h.of_keygenCompleted
      exact .inr ⟨_, rfl, hcells.resolve_left (by simp [ha])⟩
  | _ => exact hm.elim

/-- A state no message is accepted in. -/
def ProtocolState.Closed (st : ProtocolState X) : Prop :=
  st ≠ .idle ∧ readyForKeygen st = false ∧ readyForSigning st = false

/-- Without a task and without a pending call, a closed state is never left. -/
theorem closed_run {c c' : Config X} {ls : List (Label X)} (hst : c.inst.orch.state.Closed)
    (ht : c.inst.tasks = []) (hp : c.pending = none)
    (hr : (orchestratorMachine X).run c ls = some c') : c' = c := by
  refine Machine.run_preserves (I := (· = c)) ?_ rfl hr
  rintro s l t rfl hl
  cases l with
  | call chan sender msg =>
    obtain ⟨-, rfl⟩ := Config.step_call_eq_some.1 hl
    rcases s.call_cases hp chan sender msg with ⟨-, he⟩ | ⟨_, _, _, _, _, _, -, hc, -⟩ |
        ⟨_, _, _, _, _, _, -, hc, -⟩ | ⟨_, _, _, _, _, _, -, hc, -⟩
    · exact he
    · exact absurd hc.2.1 hst.1
    · exact absurd hc.2.1 (by simp [hst.2.1])
    · exact absurd hc.2.1 (by simp [hst.2.2])
  | resume chan => simp [orchestratorMachine, Config.step, hp] at hl
  | finish i r => simp [orchestratorMachine, Config.step, ht] at hl
  | advance i => simp [orchestratorMachine, Config.step, ht] at hl

/-- An idle orchestrator that half-applies a message stays where that leaves it: no later step of
any run changes it again. -/
theorem halfApplied_stuck {c c' : Config X} {chan : ChannelId} {sender : X.PeerId}
    {msg : CoordinationMessage X} {ls : List (Label X)}
    (h : (orchestratorMachine X).Reachable c) (hs : c.inst.orch.state = .idle)
    (hm : c.inst.orch.HalfApplied msg)
    (hr : (orchestratorMachine X).run
      (c.reply (c.inst.orch.handleCoordinationMessage chan sender msg)) ls = some c') :
    c' = c.reply (c.inst.orch.handleCoordinationMessage chan sender msg) := by
  have hsh := reachable_shaped h
  rw [Config.Shaped, hs] at hsh
  obtain ⟨ht, -, -, -⟩ := hsh.of_idle
  suffices hx : ((c.inst.orch.handleCoordinationMessage chan sender msg).orch.state.Closed ∧
      (c.inst.orch.handleCoordinationMessage chan sender msg).spawned = none) by
    refine closed_run hx.1 ?_ rfl hr
    simp [Config.reply, ht, hx.2]
  cases msg with
  | initiateKeygen eid t n timestamp =>
    obtain ⟨⟨i, ts, hc⟩, ha⟩ := hm
    simp only [handleCoordinationMessage]
    rcases handleInitiateKeygen_cases c.inst.orch chan sender eid t n timestamp with
      ⟨_, hn, -⟩ | ⟨_, _, _, ⟨-, he⟩ | ⟨_, ha', -⟩⟩
    · exact absurd hc (hn i ts)
    · simp [he, ProtocolState.Closed, readyForKeygen, readyForSigning]
    · rw [ha] at ha'
      cases ha'
  | initiateSigning eid m s timestamp =>
    obtain ⟨⟨i, ts, hc, hi⟩, hcells⟩ := hm
    simp only [handleCoordinationMessage]
    rcases handleInitiateSigning_cases c.inst.orch chan sender eid m s timestamp with
      ⟨_, hn, -⟩ | ⟨_, _, _, ⟨-, he⟩ | ⟨-, -, he⟩ | ⟨-, _, _, ha, hk, -⟩⟩
    · exact absurd hc (hn i ts)
    · simp [he, ProtocolState.Closed, readyForKeygen, readyForSigning]
    · simp [he, ProtocolState.Closed, readyForKeygen, readyForSigning]
    · simp [ha, hk] at hcells
  | _ => exact hm.elim

/-- An orchestrator that has just been constructed rejects a keygen for want of aux info and is no
longer idle. -/
theorem keygen_before_aux_half_applied :
    let o : MPCOrchestrator .plain := .new "b" ["a", "b"] (.ofEntries [("a", 0), ("b", 1)])
    (orchestratorMachine .plain).Reachable ⟨⟨o, []⟩, none⟩ ∧
      ¬ o.ErrorAtomic 0 "a" (.initiateKeygen [7] 1 2 ⟨0⟩) := by
  refine ⟨.of_init ⟨_, _, _, rfl⟩, fun h => ?_⟩
  have hx := (h .auxInfoMissing rfl).1
  cases congrArg MPCOrchestrator.state hx

end P2pMpc
