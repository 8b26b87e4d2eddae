import P2pMpc.Lib.Progress
import P2pMpc.Lib.Refinement
import P2pMpc.PhaseMonotone

/-!
# The life of an orchestrator

The documentation of the protocol states an order of the phases. What the code lets an orchestrator
do, over every interleaving, is drawn here as a diagram of eight stages (`phaseDiagram`). A keygen
or a signing that is entered from `Idle` is a stage of its own, since it is never left: there is no
aux info, and no task is spawned. The machine of the orchestrator refines the diagram, and realises
it: the sequences of stages an orchestrator can go through are the paths of the diagram.
-/

namespace P2pMpc

open StateMachine MPCOrchestrator

variable {X : Platform}

/-- The stages; `prepared` says that the aux info is there. -/
inductive Stage
  | idle
  | auxGeneration
  | auxCompleted
  | keygen (prepared : Bool)
  | keygenCompleted
  | signing (prepared : Bool)
  | signingCompleted
  | failed
  deriving DecidableEq, Repr

/-- The stages that may follow. -/
def Stage.next : Stage → List Stage
  | .idle => [.auxGeneration, .keygen false, .signing false]
  | .auxGeneration => [.auxCompleted, .failed]
  | .auxCompleted => [.keygen true]
  | .keygen true => [.keygenCompleted, .failed]
  | .keygenCompleted => [.signing true]
  | .signing true => [.signingCompleted, .failed]
  | _ => []

/-- The diagram, as a machine whose labels are the stages entered. -/
def phaseDiagram : Machine Stage Stage where
  init st := st = .idle
  step st st' := if st' ∈ st.next then some st' else none

/-- The stage of a phase whose task runs. -/
def Phase.stage : Phase → Stage
  | .aux => .auxGeneration
  | .keygen => .keygen true
  | .signing => .signing true

/-- The stage of a protocol state, beside the aux info. -/
def ProtocolState.stage (prepared : Bool) : ProtocolState X → Stage
  | .idle => .idle
  | .auxGeneration _ _ => .auxGeneration
  | .auxCompleted => .auxCompleted
  | .keygen _ _ _ => .keygen prepared
  | .keygenCompleted _ => .keygenCompleted
  | .signing _ _ _ _ => .signing prepared
  | .signingCompleted _ => .signingCompleted
  | .failed _ _ => .failed

/-- The stages that may still follow one another. -/
def Stage.height : Stage → ℕ
  | .idle => 6
  | .auxGeneration => 5
  | .auxCompleted => 4
  | .keygen true => 3
  | .keygenCompleted => 2
  | .signing true => 1
  | _ => 0

theorem Stage.height_lt {st st' : Stage} (h : st' ∈ st.next) : st'.height < st.height := by
  unfold Stage.next at h
  split at h <;> simp only [List.mem_cons, List.not_mem_nil, or_false] at h
  · rcases h with rfl | rfl | rfl <;> decide
  · rcases h with rfl | rfl <;> decide
  · subst h
    decide
  · rcases h with rfl | rfl <;> decide
  · subst h
    decide
  · rcases h with rfl | rfl <;> decide

/-- Every step of the diagram takes one of the stages that may still follow. -/
theorem phaseDiagram_amortised :
    Amortised phaseDiagram (fun _ => True) Stage.height (fun _ => true) fun _ => 0 where
  keeps _ _ _ _ _ := trivial
  pays st st' st'' _ hl := by
    obtain ⟨hnext, rfl⟩ := by simpa [phaseDiagram] using hl
    exact Stage.height_lt hnext

namespace Config

/-- The stage of an orchestrator. -/
def stage (c : Config X) : Stage := c.inst.orch.state.stage c.inst.orch.auxInfo.isSome

/-- The stage that a step enters, if it is another. -/
def enters (c : Config X) (l : Label X) : List Stage :=
  (c.step l).elim [] fun c' => if c'.stage = c.stage then [] else [c'.stage]

/-- The stages that an orchestrator goes through. -/
def history (c : Config X) (ls : List (Label X)) : List Stage :=
  (orchestratorMachine X).trace enters c ls

variable {c c' : Config X} {l : Label X}

/-! ### Every history is a path -/

/-- A task of keygen or signing is spawned beside the aux info. -/
theorem Shaped.prepared (h : c.Shaped) {t : Task X} (ht : t ∈ c.inst.tasks)
    (hφ : t.phase ≠ .aux) : c.inst.orch.auxInfo.isSome = true := by
  obtain ⟨⟨⟨st, ps, pa, lp, tx₁, tx₂, tx₃, a, k⟩, tasks⟩, pend⟩ := c
  simp only [Config.Shaped] at h ht ⊢
  cases h with
  | idle | keygenStuck | keygenDoomed | signingStuck | signingDoomed => cases ht
  | auxActive | auxFailed =>
    obtain rfl := List.mem_singleton.1 ht
    exact absurd rfl hφ
  | auxStored | auxCompleted | keygenEntered | keygenActive | keygenCompleted | keygenFailed |
    signingEntered | signingActive | signingCompleted | signingFailed => rfl

/-- While a task has its completion before it, the stage is that of its phase. -/
theorem Shaped.stage_of_uncompleted (h : c.Shaped) {i : ℕ} {t : Task X}
    (ht : c.inst.tasks[i]? = some t) (hu : t.uncompleted = true) : c.stage = t.phase.stage := by
  obtain ⟨⟨e, he⟩, -, -⟩ := h.of_uncompleted ht hu
  have hprepared := fun hφ => h.prepared (List.mem_of_getElem? ht) hφ
  unfold stage
  cases hst : c.inst.orch.state <;> rw [hst] at he <;>
    first
    | exact he.elim
    | (obtain ⟨hφ, -⟩ := he
       rw [hφ] at hprepared ⊢
       first | rfl | rw [hprepared (by decide)]; rfl)

/-- A task that goes on leaves the stage as it is, or completes the phase in progress. -/
theorem Shaped.advance_stage (h : c.Shaped) {i : ℕ} (hl : c.step (.advance i) = some c') :
    c'.stage = c.stage ∨ c'.stage ∈ c.stage.next := by
  obtain ⟨t, t', o, ht, ha, rfl⟩ := step_advance_eq_some.1 hl
  have hstage := h.stage_of_uncompleted ht
  have hstep := h.step hl
  unfold Task.advance at ha
  split at ha <;> (try split_ifs at ha) <;> cases ha
  · -- the store of the aux info does not end the phase
    left
    rw [hstage rfl, hstep.stage_of_uncompleted (List.getElem?_set_self
      (List.getElem?_eq_some_iff.1 ht).1) rfl]
    rfl
  · exact .inr (hstage rfl ▸ List.mem_cons_self)
  · exact .inr (hstage rfl ▸ List.mem_cons_of_mem _ List.mem_cons_self)
  · exact .inr (hstage rfl ▸ List.mem_cons_self)
  · exact .inl rfl
  · exact .inr (hstage rfl ▸ List.mem_cons_of_mem _ List.mem_cons_self)
  · exact .inr (hstage rfl ▸ List.mem_cons_self)
  · exact .inr (hstage rfl ▸ List.mem_cons_of_mem _ List.mem_cons_self)

/-- A call that passes its checks enters the stage of its phase. -/
theorem Shaped.call_stage (h : c.Shaped) (hp : c.pending = none) (chan : ChannelId)
    (sender : X.PeerId) (msg : CoordinationMessage X) :
    (c.call chan sender msg).stage = c.stage ∨ (c.call chan sender msg).stage ∈ c.stage.next := by
  rcases c.call_cases hp chan sender msg with ⟨-, he⟩ | ⟨eid, _, _, _, i, ts, -, hc, he⟩ |
      ⟨eid, t, n, _, i, ts, -, hc, he⟩ | ⟨eid, m, s, _, i, ts, -, hc, he⟩ <;> rw [he]
  · exact .inl rfl
  · right
    rw [stage, stage, hc.2.1]
    exact List.mem_cons_self
  · right
    have hr := hc.2.1
    simp only [Config.Shaped] at h
    simp only [stage]
    generalize c.inst.orch.state = st at h hr
    cases st <;> simp only [readyForKeygen, Bool.false_eq_true] at hr
    · rw [h.of_idle.2.2.1]
      simp [ProtocolState.stage, Stage.next]
    · obtain ⟨p, m, ts₁, a', -, -, h3, -⟩ := h.of_auxCompleted
      rw [h3]
      exact List.mem_cons_self
  · right
    have hr := hc.2.1
    simp only [Config.Shaped] at h
    simp only [stage]
    generalize c.inst.orch.state = st at h hr
    cases st <;> simp only [readyForSigning, Bool.false_eq_true] at hr
    · rw [h.of_idle.2.2.1]
      simp [ProtocolState.stage, Stage.next]
    · obtain ⟨p, n₁, ts₁, kp, n, t, ts₂, share, pc, -, -, -, -, h3⟩ := h.of_keygenCompleted
      rw [h3]
      exact List.mem_cons_self

/-- A step leaves the stage as it is, or enters one that may follow. -/
theorem Shaped.step_stage (h : c.Shaped) (hl : c.step l = some c') :
    c'.stage = c.stage ∨ c'.stage ∈ c.stage.next := by
  cases l with
  | call chan sender msg =>
    obtain ⟨hp, rfl⟩ := step_call_eq_some.1 hl
    exact h.call_stage hp chan sender msg
  | resume chan =>
    rcases resume_cases hl with ⟨_, -, -, rfl⟩ | ⟨_, _, _, _, _, -, -, rfl⟩ |
        ⟨_, _, _, _, _, -, -, rfl⟩ | ⟨_, _, _, _, _, _, -, -, rfl⟩ <;> exact .inl rfl
  | finish i r =>
    obtain ⟨_, _, -, -, rfl⟩ := step_finish_eq_some.1 hl
    exact .inl rfl
  | advance i => exact h.advance_stage hl

theorem enters_eq (hl : c.step l = some c') :
    c.enters l = if c'.stage = c.stage then [] else [c'.stage] := by
  rw [enters, hl, Option.elim_some]

theorem refines_phaseDiagram (X : Platform) :
    Refines (orchestratorMachine X) phaseDiagram Shaped stage enters where
  init := by
    rintro c ⟨p, ps, m, rfl⟩
    exact ⟨.idle, rfl⟩
  step := by
    intro c l c' hs hl
    refine ⟨hs.step hl, ?_⟩
    rw [enters_eq hl]
    split_ifs with he
    · rw [Machine.run_nil, he]
    · have hnext := (hs.step_stage hl).resolve_left he
      exact Machine.run_singleton.2 (if_pos hnext)

/-- Over a whole run an orchestrator changes its stage six times at most. -/
theorem history_length_le {ls : List (Label X)} (h : (orchestratorMachine X).init c)
    (hr : (orchestratorMachine X).run c ls = some c') : (c.history ls).length ≤ 6 := by
  obtain ⟨hs, hidle⟩ := (refines_phaseDiagram X).init c h
  have hpath := (refines_phaseDiagram X).run hs hr
  have hle := phaseDiagram_amortised.run_count_internal_le trivial hpath
  rw [show c.stage = .idle from hidle, List.countP_true] at hle
  simp only [Bool.not_true, List.filter_false, List.map_nil, List.sum_nil] at hle
  exact (Nat.le_add_left _ _).trans hle

/-! ### Every path is a history -/

/-- An orchestrator at a stage from which it can go on to all stages that may follow. -/
inductive Standing : Config X → Stage → Prop
  | idle (ps pa lp i) (hi : pa.lookup lp = some i) : Standing ⟨⟨.new lp ps pa, []⟩, none⟩ .idle
  | auxGeneration (q e ps pa lp i t₁ t₂ t₃ p n ts) (hi : pa.lookup lp = some i) :
      Standing ⟨⟨⟨.auxGeneration q e, ps, pa, lp, t₁, t₂, t₃, none, none⟩,
        [.aux p n ts .running]⟩, none⟩ .auxGeneration
  | auxCompleted (ps pa lp i t₁ t₂ t₃ a p n ts) (hi : pa.lookup lp = some i) :
      Standing ⟨⟨⟨.auxCompleted, ps, pa, lp, t₁, t₂, t₃, some a, none⟩,
        [.aux p n ts .done]⟩, none⟩ .auxCompleted
  | keygen (q e t ps pa lp i t₁ t₂ t₃ a p n ts kp n' t' ts') (hi : pa.lookup lp = some i) :
      Standing ⟨⟨⟨.keygen q e t, ps, pa, lp, t₁, t₂, t₃, some a, none⟩,
        [.aux p n ts .done, .keygen kp n' t' ts' .running]⟩, none⟩ (.keygen true)
  | keygenCompleted (pk ps pa lp i t₁ t₂ t₃ a share p n ts kp n' t' ts')
      (hi : pa.lookup lp = some i) :
      Standing ⟨⟨⟨.keygenCompleted pk, ps, pa, lp, t₁, t₂, t₃, some a, some share⟩,
        [.aux p n ts .done, .keygen kp n' t' ts' .done]⟩, none⟩ .keygenCompleted
  | signing (q e m s ps pa lp t₁ t₂ t₃ a share p n ts kp n' t' ts' sp s' m' ts'') :
      Standing ⟨⟨⟨.signing q e m s, ps, pa, lp, t₁, t₂, t₃, some a, some share⟩,
        [.aux p n ts .done, .keygen kp n' t' ts' .done, .signing sp s' m' ts'' .running]⟩, none⟩
        (.signing true)
  | last (c st) (hst : st.next = []) : Standing c st

/-- The run of `ls` from `c` enters the stage `st` and no other, and ends standing there. -/
def Goes (c : Config X) (st : Stage) : Prop :=
  ∃ ls c', (orchestratorMachine X).run c ls = some c' ∧ c.history ls = [st] ∧ Standing c' st

/-- A message that is let in enters a stage, and the run of its call goes on there. -/
theorem goes_of_call (ls : List (Label X)) {d : Config X} {chan : ChannelId} {sender : X.PeerId}
    {msg : CoordinationMessage X} (hp : c.pending = none) (hcall : c.call chan sender msg = d)
    (hne : d.stage ≠ c.stage) (hr : (orchestratorMachine X).run d ls = some c')
    (hd : d.history ls = []) (hs : Standing c' d.stage) : c.Goes d.stage := by
  have hl : c.step (.call chan sender msg) = some d := step_call_eq_some.2 ⟨hp, hcall.symm⟩
  have hstep : (orchestratorMachine X).step c (.call chan sender msg) = some d := hl
  refine ⟨_, c', Machine.run_cons_eq_some.2 ⟨d, hstep, hr⟩, ?_, hs⟩
  rw [history, Machine.trace_cons hstep, enters_eq hl, if_neg hne, ← history, hd]
  rfl

section Steps

variable {ps : List X.PeerId} {pa : HashMap X.PeerId PartyIndex} {lp : X.PeerId} {i : PartyIndex}

theorem goes_auxGeneration (hi : pa.lookup lp = some i) :
    Goes ⟨⟨.new lp ps pa, []⟩, none⟩ .auxGeneration := by
  have hcall : Config.call ⟨⟨.new lp ps pa, []⟩, none⟩ 0 lp (.initiateAux [] ps pa ⟨0⟩) =
      ⟨⟨⟨.auxGeneration lp [], ps, pa, lp, some 0, none, none, none, none⟩,
        [.aux (.new i 0) auxTotalParties 0 .running]⟩, none⟩ := by
    simp [Config.call, reply, handleCoordinationMessage, handleInitiateAux, new,
      SystemTime.secsSinceEpoch, hi]
  refine goes_of_call [] rfl hcall ?_ rfl rfl (.auxGeneration _ _ _ _ _ i _ _ _ _ _ _ hi)
  rintro ⟨⟩

/-- Without the aux info a keygen that is let in waits for it, or stops, for ever. -/
theorem goes_unprepared (hi : pa.lookup lp = some i) :
    Goes ⟨⟨.new lp ps pa, []⟩, none⟩ (.keygen false) ∧
      Goes ⟨⟨.new lp ps pa, []⟩, none⟩ (.signing false) := by
  constructor
  · have hcall : Config.call ⟨⟨.new lp ps pa, []⟩, none⟩ 0 lp (.initiateKeygen [] 1 1 ⟨0⟩) =
        ⟨⟨⟨.keygen lp [] 1, ps, pa, lp, none, none, none, none, none⟩, []⟩,
          some (.keygen i 1 1 0)⟩ := by
      simp [Config.call, enterKeygen, readyForKeygen, new, SystemTime.secsSinceEpoch, hi]
    refine goes_of_call [] rfl hcall ?_ rfl rfl (.last _ _ rfl)
    rintro ⟨⟩
  · have hcall : Config.call ⟨⟨.new lp ps pa, []⟩, none⟩ 0 lp (.initiateSigning [] [] [] ⟨0⟩) =
        ⟨⟨⟨.signing lp [] [] [], ps, pa, lp, none, none, none, none, none⟩, []⟩, none⟩ := by
      simp [Config.call, enterSigning, readyForSigning, new, SystemTime.secsSinceEpoch, hi]
    refine goes_of_call [] rfl hcall ?_ rfl rfl (.last _ _ rfl)
    rintro ⟨⟩

theorem goes_keygen {t₁ t₂ t₃ : Option ChannelId} {a : X.AuxInfo} {p : AuxParty} {n : UInt16}
    {ts : UInt64} (hi : pa.lookup lp = some i) :
    Goes ⟨⟨⟨.auxCompleted, ps, pa, lp, t₁, t₂, t₃, some a, none⟩, [.aux p n ts .done]⟩, none⟩
      (.keygen true) := by
  have hcall : Config.call ⟨⟨⟨.auxCompleted, ps, pa, lp, t₁, t₂, t₃, some a, none⟩,
      [.aux p n ts .done]⟩, none⟩ 0 lp (.initiateKeygen [] 1 1 ⟨0⟩) =
        ⟨⟨⟨.keygen lp [] 1, ps, pa, lp, t₁, t₂, t₃, some a, none⟩, [.aux p n ts .done]⟩,
          some (.keygen i 1 1 0)⟩ := by
    simp [Config.call, enterKeygen, readyForKeygen, SystemTime.secsSinceEpoch, hi]
  refine goes_of_call [.resume 0] rfl hcall ?_ rfl rfl
    (.keygen _ _ _ _ _ _ i _ _ _ _ _ _ _ _ _ _ _ hi)
  rintro ⟨⟩

theorem goes_signing {t₁ t₂ t₃ : Option ChannelId} {a : X.AuxInfo} {share : X.KeyShare}
    {pk : String} {p : AuxParty} {n n' t' : UInt16} {ts ts' : UInt64} {kp : KeygenParty X}
    (hi : pa.lookup lp = some i) :
    Goes ⟨⟨⟨.keygenCompleted pk, ps, pa, lp, t₁, t₂, t₃, some a, some share⟩,
      [.aux p n ts .done, .keygen kp n' t' ts' .done]⟩, none⟩ (.signing true) := by
  have hcall : Config.call ⟨⟨⟨.keygenCompleted pk, ps, pa, lp, t₁, t₂, t₃, some a, some share⟩,
      [.aux p n ts .done, .keygen kp n' t' ts' .done]⟩, none⟩ 0 lp
        (.initiateSigning [] [] [i] ⟨0⟩) =
        ⟨⟨⟨.signing lp [] [] [i], ps, pa, lp, t₁, t₂, t₃, some a, some share⟩,
          [.aux p n ts .done, .keygen kp n' t' ts' .done]⟩, some (.signing i [] [i] 0)⟩ := by
    simp [Config.call, enterSigning, readyForSigning, SystemTime.secsSinceEpoch, hi]
  refine goes_of_call [.resume 0, .resume 0] rfl hcall ?_ rfl rfl
    (.signing _ _ _ _ _ _ _ _ _ _ _ _ _ _ _ _ _ _ _ _ _ _ _)
  rintro ⟨⟩

end Steps

/-- From a standing orchestrator, all stages that may follow can be entered. -/
theorem Standing.goes (a : X.AuxInfo) (share : X.KeyShare) (sig : X.Signature) {st st' : Stage}
    (h : Standing c st) (hst : st' ∈ st.next) : c.Goes st' := by
  cases h with
  | idle ps pa lp i hi =>
    simp only [Stage.next, List.mem_cons, List.not_mem_nil, or_false] at hst
    rcases hst with rfl | rfl | rfl
    · exact goes_auxGeneration hi
    · exact (goes_unprepared hi).1
    · exact (goes_unprepared hi).2
  | auxGeneration q e ps pa lp i t₁ t₂ t₃ p n ts hi =>
    simp only [Stage.next, List.mem_cons, List.not_mem_nil, or_false] at hst
    rcases hst with rfl | rfl
    · exact ⟨[.finish 0 (.aux (.ok a)), .advance 0, .advance 0], _, rfl, rfl,
        .auxCompleted _ _ _ i _ _ _ _ _ _ _ hi⟩
    · exact ⟨[.finish 0 (.aux (.error "")), .advance 0], _, rfl, rfl, .last _ _ rfl⟩
  | auxCompleted ps pa lp i t₁ t₂ t₃ a' p n ts hi =>
    obtain rfl := List.mem_singleton.1 hst
    exact goes_keygen hi
  | keygen q e t ps pa lp i t₁ t₂ t₃ a' p n ts kp n' t' ts' hi =>
    simp only [Stage.next, List.mem_cons, List.not_mem_nil, or_false] at hst
    rcases hst with rfl | rfl
    · exact ⟨[.finish 1 (.keygen (.ok share)), .advance 1, .advance 1], _, rfl, rfl,
        .keygenCompleted _ _ _ _ i _ _ _ _ _ _ _ _ _ _ _ _ hi⟩
    · exact ⟨[.finish 1 (.keygen (.error "")), .advance 1], _, rfl, rfl, .last _ _ rfl⟩
  | keygenCompleted pk ps pa lp i t₁ t₂ t₃ a' share' p n ts kp n' t' ts' hi =>
    obtain rfl := List.mem_singleton.1 hst
    exact goes_signing hi
  | signing q e m s ps pa lp t₁ t₂ t₃ a' share' p n ts kp n' t' ts' sp s' m' ts'' =>
    simp only [Stage.next, List.mem_cons, List.not_mem_nil, or_false] at hst
    rcases hst with rfl | rfl
    · exact ⟨[.finish 2 (.signing (.ok sig)), .advance 2], _, rfl, rfl, .last _ _ rfl⟩
    · exact ⟨[.finish 2 (.signing (.error "")), .advance 2], _, rfl, rfl, .last _ _ rfl⟩
  | last c st hnone =>
    rw [hnone] at hst
    cases hst

theorem realises_phaseDiagram (p : X.PeerId) (a : X.AuxInfo) (share : X.KeyShare)
    (sig : X.Signature) : Realises (orchestratorMachine X) phaseDiagram Standing enters where
  init := by
    rintro _ rfl
    refine ⟨_, ⟨p, [p], .ofEntries [(p, 0)], rfl⟩, .idle _ _ _ 0 ?_⟩
    exact AList.lookup_insert ∅
  step := by
    intro c st m st' h hm
    obtain ⟨hnext, rfl⟩ := by simpa [phaseDiagram] using hm
    exact h.goes a share sig hnext

end Config

/-- The sequences of stages that an orchestrator goes through, over all its runs, are the paths of
the diagram from `Idle`. -/
theorem stage_histories (p : X.PeerId) (a : X.AuxInfo) (share : X.KeyShare) (sig : X.Signature)
    (path : List Stage) :
    (∃ c ls c', (orchestratorMachine X).init c ∧ (orchestratorMachine X).run c ls = some c' ∧
      c.history ls = path) ↔ ∃ st, phaseDiagram.run .idle path = some st :=
  (Config.realises_phaseDiagram p a share sig).trace_iff (Config.refines_phaseDiagram X) rfl
    fun _ h => h

end P2pMpc
