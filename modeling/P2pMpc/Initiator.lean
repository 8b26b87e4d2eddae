import P2pMpc.Node

/-!
# Who drives a node

The handlers record the sender they are given as the initiator of the phase, and none of them looks
it up among the participants. What the event loop gives them is the authenticated source of the
gossip message, and the RPC calls give them the node itself: the recorded initiator is whoever sent
the Initiate message that the node is acting on, be it a participant or not.
-/

namespace P2pMpc

open StateMachine MPCOrchestrator

variable {X : Platform}

/-- The state is the one that the handling of `msg` from `p` enters. -/
def ProtocolState.EnteredBy (p : X.PeerId) : CoordinationMessage X → ProtocolState X → Prop
  | .initiateAux eid _ _ _, st => st = .auxGeneration p eid
  | .initiateKeygen eid t _ _, st => st = .keygen p eid t
  | .initiateSigning eid m s _, st => st = .signing p eid m s
  | _, _ => False

/-- A handled message leaves the state alone or enters its own. -/
theorem handle_state (o : MPCOrchestrator X) (chan : ChannelId) (p : X.PeerId)
    (msg : CoordinationMessage X) :
    (o.handleCoordinationMessage chan p msg).orch.state = o.state ∨
      (o.handleCoordinationMessage chan p msg).orch.state.EnteredBy p msg := by
  cases msg with
  | initiateAux eid ps pa timestamp =>
    simp only [handleCoordinationMessage]
    rcases handleInitiateAux_cases o chan p eid pa timestamp with ⟨_, -, he⟩ | ⟨_, _, -, he⟩ <;>
      rw [he]
    · exact .inl rfl
    · exact .inr rfl
  | initiateKeygen eid t n timestamp =>
    simp only [handleCoordinationMessage]
    rcases handleInitiateKeygen_cases o chan p eid t n timestamp with
      ⟨_, -, he⟩ | ⟨_, _, -, ⟨-, he⟩ | ⟨_, -, he⟩⟩ <;> rw [he]
    · exact .inl rfl
    · exact .inr rfl
    · exact .inr rfl
  | initiateSigning eid m s timestamp =>
    simp only [handleCoordinationMessage]
    rcases handleInitiateSigning_cases o chan p eid m s timestamp with
      ⟨_, -, he⟩ | ⟨_, _, -, ⟨-, he⟩ | ⟨-, -, he⟩ | ⟨-, _, _, -, -, he⟩⟩ <;> rw [he]
    · exact .inl rfl
    · exact .inr rfl
    · exact .inr rfl
    · exact .inr rfl
  | auxCompleted | keygenCompleted | signingCompleted | protocolFailed => exact .inl rfl

/-- A task leaves the state alone or ends the phase. -/
theorem Task.advance_state {stateFree auxFree : Bool} {o o' : MPCOrchestrator X} {t t' : Task X}
    (h : t.advance stateFree auxFree o = some (o', t')) :
    o'.state = o.state ∨ o'.state.initiator = none := by
  unfold Task.advance at h
  split at h <;> (try split_ifs at h) <;> cases h <;> first | exact .inl rfl | exact .inr rfl

namespace Node

/-- The protocol state of the installed orchestrator. -/
def InState (n : Node X) (st : ProtocolState X) : Prop :=
  ∃ inst, n.mpcOrchestrator = some inst ∧ inst.orch.state = st

/-- The step makes the node handle the message that enters the state. -/
def Enters (n : Node X) (l : NodeLabel X) (st : ProtocolState X) : Prop :=
  ∃ p msg, n.handled l = some (p, msg) ∧ st.EnteredBy p msg

/-- A state with an initiator was there before the step or is entered by it. -/
theorem step_inState {n n' : Node X} {l : NodeLabel X} {st : ProtocolState X} {q : X.PeerId}
    (hq : st.initiator = some q) (h : n.step l = some n') (hst : n'.InState st) :
    n.InState st ∨ n.Enters l st := by
  obtain ⟨inst', hinst', rfl⟩ := hst
  have hslot := (step_slot h).2.2
  rw [hinst'] at hslot
  generalize hs : some inst' = slot at hslot
  cases hslot with
  | keep => exact .inl ⟨inst', hs.symm, rfl⟩
  | install =>
    cases hs
    cases hq
  | coordinate inst p msg hinst hl =>
    cases hs
    exact (handle_state inst.orch n.nextChannel p msg).imp (fun he => ⟨inst, hinst, he.symm⟩)
      fun he => ⟨p, msg, hl, he⟩
  | finish inst i r c hinst hc =>
    cases hs
    obtain ⟨_, _, -, -, rfl⟩ := Config.step_finish_eq_some.1 hc
    exact .inl ⟨inst, hinst, rfl⟩
  | advance inst i c hinst hc =>
    cases hs
    obtain ⟨_, _, o, -, ha, rfl⟩ := Config.step_advance_eq_some.1 hc
    rcases Task.advance_state ha with he | he
    · exact .inl ⟨inst, hinst, he.symm⟩
    · rw [he] at hq
      cases hq

theorem run_id {n n' : Node X} {ls : List (NodeLabel X)}
    (h : (nodeMachine X).run n ls = some n') : n'.id = n.id :=
  Machine.run_preserves (I := fun m => m.id = n.id)
    (fun _ _ _ hs hl => (step_slot hl).1.trans hs) rfl h

/-- Whoever's message a step handles is the authenticated source of it or the node itself. -/
theorem handled_source {n : Node X} {l : NodeLabel X} {p : X.PeerId}
    {msg : CoordinationMessage X} (h : n.handled l = some (p, msg)) :
    p = n.id ∨ ∃ published now, l = .receive (some p) published now (.coordination msg) := by
  have hrpc : ∀ b : Option (CoordinationMessage X), b.map (n.id, ·) = some (p, msg) → p = n.id := by
    intro b hb
    obtain ⟨_, -, he⟩ := Option.map_eq_some_iff.1 hb
    cases he
    rfl
  unfold handled at h
  split at h
  · split_ifs at h
    cases h
    exact .inr ⟨_, _, rfl⟩
  · exact .inl (hrpc _ h)
  · exact .inl (hrpc _ h)
  · exact .inl (hrpc _ h)
  · cases h

end Node

/-- In every run of a node: while a phase is in progress, its recorded initiator is the node itself
or the authenticated source of a coordination message it received, and that message is the one that
entered the recorded phase. -/
theorem initiator_is_source {n₀ n : Node X} {ls : List (NodeLabel X)} (h₀ : (nodeMachine X).init n₀)
    (hr : (nodeMachine X).run n₀ ls = some n) {inst : Instance X}
    (hinst : n.mpcOrchestrator = some inst) {q : X.PeerId}
    (hq : inst.orch.state.initiator = some q) :
    ∃ pre l post m msg, ls = pre ++ l :: post ∧ (nodeMachine X).run n₀ pre = some m ∧
      m.handled l = some (q, msg) ∧ inst.orch.state.EnteredBy q msg ∧
      (q = n.id ∨ ∃ published now, l = .receive (some q) published now (.coordination msg)) := by
  have hid := Node.run_id hr
  rcases Machine.run_origin (M := nodeMachine X) (P := (Node.InState · inst.orch.state))
      (C := fun m l => m.Enters l inst.orch.state)
      (fun _ _ _ hl hst => Node.step_inState hq hl hst) hr ⟨inst, hinst, rfl⟩ with
    ⟨_, hnone, -⟩ | ⟨pre, l, post, m, rfl, hm, p, msg, hl, he⟩
  · obtain ⟨_, rfl⟩ := h₀
    cases hnone
  · obtain rfl : p = q := by
      cases msg <;> simp only [ProtocolState.EnteredBy] at he <;> rw [he] at hq <;> cases hq <;> rfl
    refine ⟨pre, l, post, m, msg, rfl, hm, hl, he, ?_⟩
    rcases Node.handled_source hl with hs | hs
    · exact .inl (by rw [hs, Node.run_id hm, hid])
    · exact .inr hs

/-! ### A stranger's aux generation -/

namespace StrangerRun

def assignments : HashMap String ℕ := .ofEntries [("a", 0), ("b", 1)]

/-- The node `b` is assigned by `a`, then a peer `x` of no session starts an aux generation. -/
def labels : List (NodeLabel .plain) :=
  [.receive (some "a") true 0 (.assignment (.request "a" assignments "s")),
    .receive (some "x") true 0
      (.coordination (.initiateAux [9] [] (.ofEntries [("b", 7)]) ⟨0⟩))]

/-- The orchestrator of `b` after it. -/
def driven : Instance .plain where
  orch := { (MPCOrchestrator.ofAssignments "b" assignments : MPCOrchestrator .plain) with
    state := .auxGeneration "x" [9]
    auxIncomingTx := some 0 }
  tasks := [.aux (.new 7 0) 3 0 .running]

/-- The node `b` after it. -/
def node : Node .plain where
  id := "b"
  peers := 0
  peerList := []
  sessions := .ofEntries [("s", .new 0 "s" "a" assignments)]
  currentSessionId := some "s"
  mpcOrchestrator := some driven
  retired := []
  nextChannel := 1

theorem run_labels : (nodeMachine .plain).run (.new "b") labels = some node := rfl

end StrangerRun

/-- A peer outside the assignment is recorded as the initiator of the phase it started. -/
theorem stranger_drives : (nodeMachine .plain).Reachable StrangerRun.node ∧
    StrangerRun.node.mpcOrchestrator = some StrangerRun.driven ∧
    StrangerRun.driven.orch.participants = ["a", "b"] ∧
    StrangerRun.driven.orch.state.initiator = some "x" :=
  ⟨⟨_, _, ⟨"b", rfl⟩, StrangerRun.run_labels⟩, rfl, rfl, rfl⟩

/-- Its message is in the run, with it as the authenticated source. -/
theorem stranger_is_source : ∃ pre l post m msg, StrangerRun.labels = pre ++ l :: post ∧
    (nodeMachine .plain).run (.new "b") pre = some m ∧ m.handled l = some ("x", msg) ∧
    StrangerRun.driven.orch.state.EnteredBy "x" msg ∧
    ("x" = StrangerRun.node.id ∨
      ∃ published now, l = .receive (some "x") published now (.coordination msg)) := by
  have h₀ : (nodeMachine .plain).init (Node.new "b") := ⟨"b", rfl⟩
  have hinst : StrangerRun.node.mpcOrchestrator = some StrangerRun.driven := rfl
  have hq : StrangerRun.driven.orch.state.initiator = some "x" := rfl
  exact initiator_is_source h₀ StrangerRun.run_labels hinst hq

end P2pMpc
