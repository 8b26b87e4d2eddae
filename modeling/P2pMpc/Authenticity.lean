import P2pMpc.Initiator

/-!
# Whose name a message acts in

Coordination messages are handled in the name of their authenticated source. Assignment messages
carry the identity of the coordinator or of the accepting peer, and protocol messages that of the
sending peer, and these declared identities are what the event loop goes by. `Authentic` is the law
that every effect of a message is attributed to its source; a message obeys it exactly if it
declares its source, or has no effect that is attributed to anybody. An Acceptance of a peer that
has accepted before still has the effect of installing a new orchestrator once all have accepted.
-/

namespace P2pMpc

open StateMachine

variable {X : Platform}

namespace Node

variable {n : Node X} {p : X.PeerId} {published : Bool} {now : UInt64}

theorem adopt_eq_iff {c sid : String} {as : HashMap String ℕ} :
    n.adopt now c as sid = n ↔ n.currentSessionId = some sid ∧ sid ∈ n.sessions := by
  constructor
  · intro h
    have h1 : some sid = n.currentSessionId := congrArg currentSessionId h
    refine ⟨h1.symm, ?_⟩
    by_contra hs
    have h2 := congrArg sessions h
    simp only [adopt, if_neg hs] at h2
    exact hs (h2 ▸ (AList.mem_insert _).2 (.inl rfl))
  · rintro ⟨h1, h2⟩
    cases n
    simp_all [adopt]

end Node

open Node

namespace ImpostorRun

def assignments : HashMap String ℕ := .ofEntries [("a", 0), ("b", 1)]

/-- The node `b`, assigned by `a`, in an aux generation of `a`. -/
def labels : List (NodeLabel .plain) :=
  [.receive (some "a") true 0 (.assignment (.request "a" assignments "s")),
    .receive (some "a") true 0
      (.coordination (.initiateAux [9] [] (.ofEntries [("a", 0), ("b", 1)]) ⟨0⟩))]

end ImpostorRun

end P2pMpc
