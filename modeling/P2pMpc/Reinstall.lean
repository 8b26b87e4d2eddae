import P2pMpc.Node

/-!
# Repeated assignment messages

`handle_assignment_message` stores a session only if it is not stored yet, but installs an
orchestrator whenever a Request is accepted and whenever an Acceptance leaves the session with all
it needs. A repeated message therefore replaces an orchestrator that may have come any way through
the phases, key share included, by a new one. `slot_kept_iff` says when it does not.
-/

namespace P2pMpc

open StateMachine

variable {X : Platform}

/-- The orchestrator has made no progress since its construction. -/
def MPCOrchestrator.Fresh (o : MPCOrchestrator X) : Prop :=
  o.state = .idle ∧ o.auxInfo = none ∧ o.keyShare = none ∧ ∀ φ, o.incomingTx φ = none

/-- The protocol state, the cells and the channels of `o'` are those of `o`. -/
def MPCOrchestrator.SameProgress (o o' : MPCOrchestrator X) : Prop :=
  o'.state = o.state ∧ o'.auxInfo = o.auxInfo ∧ o'.keyShare = o.keyShare ∧
    ∀ φ, o'.incomingTx φ = o.incomingTx φ

/-- The message leaves the progress of the installed orchestrator as it is. -/
def Node.SlotKept (n : Node X) (published : Bool) (now : UInt64) (msg : AssignmentMessage) :
    Prop :=
  ∀ inst, n.mpcOrchestrator = some inst →
    ∃ inst', (n.handleAssignmentMessage published now msg).1.mpcOrchestrator = some inst' ∧
      inst.orch.SameProgress inst'.orch

theorem MPCOrchestrator.ofAssignments_fresh (p : X.PeerId) (assignments : HashMap String ℕ) :
    (MPCOrchestrator.ofAssignments p assignments : MPCOrchestrator X).Fresh :=
  ⟨rfl, rfl, rfl, fun φ => by cases φ <;> rfl⟩

/-- A fresh orchestrator has the progress of `o` exactly if `o` is fresh too. -/
theorem MPCOrchestrator.Fresh.sameProgress_iff {o o' : MPCOrchestrator X} (h : o'.Fresh) :
    o.SameProgress o' ↔ o.Fresh := by
  obtain ⟨h1, h2, h3, h4⟩ := h
  simp only [SameProgress, Fresh, h1, h2, h3, h4, eq_comm]

/-- An assignment message keeps the progress of the installed orchestrator exactly if it installs
none, or there is no progress yet. -/
theorem slot_kept_iff {n : Node X} {inst : Instance X} (hinst : n.mpcOrchestrator = some inst)
    (published : Bool) (now : UInt64) (msg : AssignmentMessage) :
    n.SlotKept published now msg ↔ ¬ n.Installs published msg ∨ inst.orch.Fresh := by
  have hkept : n.SlotKept published now msg ↔
      ∃ inst', (n.handleAssignmentMessage published now msg).1.mpcOrchestrator = some inst' ∧
        inst.orch.SameProgress inst'.orch := by
    refine ⟨fun h => h inst hinst, fun h i hi => ?_⟩
    obtain rfl := Option.some.inj (hinst.symm.trans hi)
    exact h
  rw [hkept]
  rcases n.handleAssignmentMessage_slot published now msg with ⟨hno, he⟩ | ⟨hyes, as, he⟩
  · rw [he, hinst]
    exact iff_of_true ⟨inst, rfl, rfl, rfl, rfl, fun _ => rfl⟩ (.inl hno)
  · rw [he]
    have hnew := MPCOrchestrator.ofAssignments_fresh n.id as
    constructor
    · rintro ⟨_, hi, hsame⟩
      cases hi
      exact .inr (hnew.sameProgress_iff.1 hsame)
    · rintro (hno | hfresh)
      · exact absurd hyes hno
      · exact ⟨_, rfl, hnew.sameProgress_iff.2 hfresh⟩

/-! ### A repeated Request after the aux generation -/

namespace RepeatedRequest

def assignments : HashMap String ℕ := .ofEntries [("a", 0), ("b", 1), ("c", 2)]

def request : AssignmentMessage := .request "a" assignments "s"

/-- The node `b` accepts the assignment of `a` and completes an aux generation. -/
def labels : List (NodeLabel .plain) :=
  [.receive (some "a") true 0 (.assignment request),
    .receive (some "a") true 0 (.coordination
      (.initiateAux [9] [] (.ofEntries [("a", 0), ("b", 1), ("c", 2)]) ⟨0⟩)),
    .act (.finish 0 (.aux (.ok (5 : ℕ)))), .act (.advance 0), .act (.advance 0)]

/-- The orchestrator of `b` after it. -/
def completed : Instance .plain where
  orch := { (MPCOrchestrator.ofAssignments "b" assignments : MPCOrchestrator .plain) with
    state := .auxCompleted
    auxIncomingTx := some 0
    auxInfo := some (5 : ℕ) }
  tasks := [.aux (.new 1 0) 3 0 .done]

/-- The node `b` after it. -/
def node : Node .plain where
  id := "b"
  peers := 0
  peerList := []
  sessions := .ofEntries [("s", .new 0 "s" "a" assignments)]
  currentSessionId := some "s"
  mpcOrchestrator := some completed
  retired := []
  nextChannel := 1

theorem run_labels : (nodeMachine .plain).run (.new "b") labels = some node := rfl

end RepeatedRequest

/-- The Request of the same session, received again, discards the aux info. -/
theorem repeated_request_discards : (nodeMachine .plain).Reachable RepeatedRequest.node ∧
    RepeatedRequest.node.mpcOrchestrator = some RepeatedRequest.completed ∧
    ¬ RepeatedRequest.node.SlotKept true 0 RepeatedRequest.request := by
  refine ⟨⟨_, _, ⟨"b", rfl⟩, RepeatedRequest.run_labels⟩, rfl, fun h => ?_⟩
  obtain ⟨inst', hinst', hstate, -⟩ := h _ rfl
  cases hinst'
  cases hstate

/-- While its acceptance cannot be published, a repeated Request changes nothing. -/
theorem unpublished_request_keeps :
    RepeatedRequest.node.SlotKept false 0 RepeatedRequest.request := by
  have hinst : RepeatedRequest.node.mpcOrchestrator = some RepeatedRequest.completed := rfl
  refine (slot_kept_iff hinst false 0 _).2 (.inl ?_)
  rintro ⟨-, -, h⟩
  cases h

end P2pMpc
