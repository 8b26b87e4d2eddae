import P2pMpc.Authenticity

/-!
# A Request whose acceptance is not published

`handle_assignment_message` writes `current_session_id` and `sessions` before it publishes its
acceptance, and installs the orchestrator after it. When the publication fails, the first two cells
are those of the new session and the third is still that of the old one.
-/

namespace P2pMpc

open StateMachine

variable {X : Platform}

/-- The step of the node `p` handles a Request that assigns it an index under another coordinator,
and the acceptance it answers with is not published. -/
def NodeLabel.failsToAccept (p : X.PeerId) : NodeLabel X → Option String
  | .receive source false _ (.assignment (.request coordinatorId assignments sessionId)) =>
      if source ≠ some p ∧ X.peerToString p ∈ assignments ∧ coordinatorId ≠ X.peerToString p then
        some sessionId
      else none
  | _ => none

namespace Node

variable {n n' m : Node X} {l : NodeLabel X} {ls : List (NodeLabel X)} {sid : String}

/-- The three cells that say which session the node takes part in are as in `n`. -/
def SameSession (n n' : Node X) : Prop :=
  n'.sessions = n.sessions ∧ n'.currentSessionId = n.currentSessionId ∧
    n'.mpcOrchestrator = n.mpcOrchestrator

/-- The session is stored and is the current one. -/
def Adopted (n : Node X) (sid : String) : Prop :=
  n.currentSessionId = some sid ∧ sid ∈ n.sessions

/-- After such a step the session cells are those of the new session, and nothing else changed. -/
theorem step_of_failsToAccept (h : n.step l = some n') (hl : l.failsToAccept n.id = some sid) :
    ∃ now c as, n' = n.adopt now c as sid := by
  unfold NodeLabel.failsToAccept at hl
  split at hl
  · next source now c as sid' =>
    obtain ⟨⟨hsource, hmem, hc⟩, he⟩ := Option.ite_none_right_eq_some.1 hl
    obtain rfl := Option.some.inj he
    obtain rfl := Option.some.inj h
    refine ⟨now, c, as, ?_⟩
    rw [onMessage, if_neg hsource]
    rcases n.handleRequest_cases false now c as sid' with ⟨hnot, -⟩ | ⟨i, -, ⟨-, he⟩ | ⟨-, hp, -⟩⟩
    · exact absurd hmem hnot
    · exact congrArg Prod.fst he
    · cases hp
  · cases hl

/-- The orchestrator of the earlier session stays installed, under the id of the new session. -/
theorem failed_acceptance_mixes (h : n.step l = some n') (hl : l.failsToAccept n.id = some sid) :
    n'.currentSessionId = some sid ∧ n'.mpcOrchestrator = n.mpcOrchestrator := by
  obtain ⟨now, c, as, rfl⟩ := step_of_failsToAccept h hl
  exact ⟨rfl, rfl⟩

theorem sameSession_adopt_iff {now : UInt64} {c : String} {as : HashMap String ℕ} :
    n.SameSession (n.adopt now c as sid) ↔ n.Adopted sid := by
  have hadopt : n.adopt now c as sid = n ↔ n.Adopted sid := adopt_eq_iff
  rw [← hadopt]
  constructor
  · rintro ⟨hsessions, hcurrent, -⟩
    cases n
    simp_all [adopt]
  · intro h
    rw [h]
    exact ⟨rfl, rfl, rfl⟩

end Node

open Node

/-- A Request whose acceptance cannot be published leaves the session cells and the orchestrator as
they were exactly if its session was already stored and current. -/
theorem failed_acceptance_traceless_iff {n n' : Node X} {l : NodeLabel X} {sid : String}
    (h : n.step l = some n') (hl : l.failsToAccept n.id = some sid) :
    n.SameSession n' ↔ n.Adopted sid := by
  obtain ⟨now, c, as, rfl⟩ := step_of_failsToAccept h hl
  exact sameSession_adopt_iff

namespace SplitRun

/-- A Request of `a` for the session `sid`, with or without a published acceptance. -/
def request (published : Bool) (sid : String) : NodeLabel .plain :=
  .receive (some "a") published 7 (.assignment (.request "a" (.ofEntries [("a", 0), ("b", 1)]) sid))

end SplitRun

/-- The node `b` takes part in the session `a-5` and cannot publish its acceptance of `a-6`: it
reports `a-6` as current and holds the orchestrator of `a-5`. -/
theorem failed_acceptance_splits : ∃ n n' : Node .plain,
    (nodeMachine .plain).run (.new "b") [SplitRun.request true "a-5"] = some n ∧
      n.currentSessionId = some "a-5" ∧ n.mpcOrchestrator.isSome = true ∧
      n.step (SplitRun.request false "a-6") = some n' ∧
      (SplitRun.request false "a-6").failsToAccept "b" = some "a-6" ∧
      n'.currentSessionId = some "a-6" ∧ n'.mpcOrchestrator = n.mpcOrchestrator ∧
      ¬ n.SameSession n' := by
  refine ⟨_, _, rfl, rfl, rfl, rfl, rfl, rfl, rfl, fun h => ?_⟩
  exact absurd (Option.some.inj h.2.1) (by decide)

/-- A repeated Request of `a-5` may fail to be accepted without a trace. -/
theorem repeated_request_traceless : ∃ n n' : Node .plain,
    (nodeMachine .plain).run (.new "b") [SplitRun.request true "a-5"] = some n ∧
      n.step (SplitRun.request false "a-5") = some n' ∧ n.SameSession n' := by
  refine ⟨_, _, rfl, rfl, ?_⟩
  exact (failed_acceptance_traceless_iff (l := SplitRun.request false "a-5") rfl
    rfl).2 ⟨rfl, by decide⟩

/-- If every Request of a run whose acceptance fails repeats the current session, the run leads
where it leads without these Requests. -/
theorem run_without_failed {n m : Node X} {ls : List (NodeLabel X)}
    (h : (nodeMachine X).run n ls = some m)
    (hrep : (nodeMachine X).Meets (fun s l => ∀ sid, l.failsToAccept s.id = some sid →
      s.Adopted sid) n ls) :
    (nodeMachine X).run n (ls.filter fun l => (l.failsToAccept n.id).isNone) = some m := by
  induction ls generalizing n with
  | nil => exact h
  | cons l ls ih =>
    obtain ⟨n', hn', hm⟩ := Machine.run_cons_eq_some.1 h
    have hstep : n.step l = some n' := hn'
    obtain ⟨hfirst, hrest⟩ := Machine.meets_cons.1 hrep
    have hih := ih hm (hrest n' hn')
    rw [(step_slot hstep).1] at hih
    cases hf : l.failsToAccept n.id with
    | none =>
      rw [List.filter_cons_of_pos (by simp [hf])]
      exact Machine.run_cons_eq_some.2 ⟨n', hn', hih⟩
    | some sid =>
      rw [List.filter_cons_of_neg (by simp [hf])]
      -- the step adopts what is adopted already
      obtain ⟨now, c, as, rfl⟩ := step_of_failsToAccept hstep hf
      rwa [adopt_eq_iff.2 (hfirst sid hf)] at hih

end P2pMpc
