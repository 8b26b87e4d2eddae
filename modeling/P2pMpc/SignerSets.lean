import P2pMpc.RpcGuards
import P2pMpc.Spawning

/-!
# Which signer sets are accepted

`initiate_signing` refuses an empty list and indices from the number of participants on; neither it
nor the handler of InitiateSigning looks for repetitions, at the indices that have been assigned, or
at the threshold of the keygen, and the handler does not look at the list at all. So the lists that
are treated as they should be are those that would have passed all these checks.
-/

namespace P2pMpc

open StateMachine MPCOrchestrator

variable {X : Platform}

/-- The signers are different indices of parties, and at least as many as the threshold. -/
structure MPCOrchestrator.ValidSigners (o : MPCOrchestrator X) (threshold : UInt16)
    (signers : List PartyIndex) : Prop where
  nodup : signers.Nodup
  indices : ∀ i ∈ signers, ∃ p, o.partyAssignments.lookup p = some i
  enough : threshold.toNat ≤ signers.length

namespace Node

variable {n : Node X} {inst : Instance X} {p : X.PeerId} {signers : List PartyIndex}
  {timestamp : SystemTime}

/-- The installed orchestrator is in `Signing` with these signers. -/
def SigningWith (n : Node X) (signers : List PartyIndex) : Prop :=
  ∃ inst q e m, n.mpcOrchestrator = some inst ∧ inst.orch.state = .signing q e m signers

/-- The step takes the node into `Signing` with these signers. -/
def EntersSigning (n : Node X) (l : NodeLabel X) (signers : List PartyIndex) : Prop :=
  ¬ n.SigningWith signers ∧ ∃ n', n.step l = some n' ∧ n'.SigningWith signers

/-- From a state that is ready for it, the node is in `Signing` after an InitiateSigning that passes
the checks before the state write, and only then. -/
theorem signingWith_coordinate (hinst : n.mpcOrchestrator = some inst) (p : X.PeerId)
    (eid m : List UInt8) :
    (n.coordinate inst p (.initiateSigning eid m signers timestamp)).1.SigningWith signers ↔
      (∃ i ts, inst.orch.SigningChecks timestamp i ts) ∨ n.SigningWith signers := by
  have hslot : (n.coordinate inst p (.initiateSigning eid m signers timestamp)).1.SigningWith
      signers ↔ ∃ q e m', (inst.orch.handleInitiateSigning n.nextChannel p eid m signers
        timestamp).orch.state = .signing q e m' signers := by
    constructor
    · rintro ⟨inst', q, e, m', he, hs⟩
      cases he
      exact ⟨q, e, m', hs⟩
    · rintro ⟨q, e, m', hs⟩
      exact ⟨_, q, e, m', rfl, hs⟩
  have hbefore : n.SigningWith signers ↔
      ∃ q e m', inst.orch.state = .signing q e m' signers := by
    simp [SigningWith, hinst]
  rw [hslot, hbefore]
  rcases handleInitiateSigning_cases inst.orch n.nextChannel p eid m signers timestamp with
    ⟨_, hnot, he⟩ | ⟨i, ts, hc, ⟨-, he⟩ | ⟨-, -, he⟩ | ⟨-, _, _, -, -, he⟩⟩ <;> rw [he]
  · rw [or_iff_right]
    rintro ⟨i, ts, hc⟩
    exact hnot i ts hc
  · exact iff_of_true ⟨_, _, _, rfl⟩ (.inl ⟨i, ts, hc⟩)
  · exact iff_of_true ⟨_, _, _, rfl⟩ (.inl ⟨i, ts, hc⟩)
  · exact iff_of_true ⟨_, _, _, rfl⟩ (.inl ⟨i, ts, hc⟩)

theorem not_signingWith_of_ready (hinst : n.mpcOrchestrator = some inst)
    (hr : readyForSigning inst.orch.state = true) : ¬ n.SigningWith signers := by
  rintro ⟨inst', q, e, m, hinst', hs⟩
  obtain rfl := Option.some.inj (hinst.symm.trans hinst')
  simp [hs, readyForSigning] at hr

/-- The message of another peer takes the node into `Signing` whatever signers it lists. -/
theorem entersSigning_message_iff (hinst : n.mpcOrchestrator = some inst) (hp : p ≠ n.id)
    (published : Bool) (now : UInt64) (eid m : List UInt8) :
    n.EntersSigning (.receive (some p) published now
      (.coordination (.initiateSigning eid m signers timestamp))) signers ↔
        ∃ i ts, inst.orch.SigningChecks timestamp i ts := by
  have hstep : n.step (.receive (some p) published now
      (.coordination (.initiateSigning eid m signers timestamp))) =
        some (n.coordinate inst p (.initiateSigning eid m signers timestamp)).1 := by
    have hsource : ¬ some p = some n.id := fun he => hp (Option.some.inj he)
    simp only [step, onMessage, if_neg hsource, onCoordination, hinst]
  simp only [EntersSigning, hstep, Option.some.injEq, exists_eq_left',
    signingWith_coordinate hinst]
  constructor
  · rintro ⟨hnot, hc | hs⟩
    · exact hc
    · exact absurd hs hnot
  · rintro ⟨i, ts, hc⟩
    exact ⟨not_signingWith_of_ready hinst hc.2.1, .inl ⟨i, ts, hc⟩⟩

/-- A call takes the node into `Signing` with a list that is not empty and stays below the number of
participants. -/
theorem entersSigning_call_iff (hinst : n.mpcOrchestrator = some inst) (message : String) :
    n.EntersSigning (.act (.initiateSigning message signers timestamp)) signers ↔
      signers ≠ [] ∧ (∀ i ∈ signers, i < UInt16.ofNat inst.orch.participants.length) ∧
        ∃ i ts, inst.orch.SigningChecks timestamp i ts := by
  have hstep : n.step (.act (.initiateSigning message signers timestamp)) =
      some (n.initiateSigning message signers timestamp).node := rfl
  simp only [EntersSigning, hstep, Option.some.injEq, exists_eq_left']
  unfold initiateSigning
  simp only [hinst]
  by_cases hne : signers = []
  · rw [if_pos hne]
    exact iff_of_false (fun h => h.1 h.2) fun h => h.1 hne
  · rw [if_neg hne]
    cases hfind : signers.find? (· ≥ UInt16.ofNat inst.orch.participants.length) with
    | some signer =>
      refine iff_of_false (fun h => h.1 h.2) ?_
      rintro ⟨-, hall, -⟩
      have hge := List.find?_some hfind
      have hlt := hall signer (List.mem_of_find?_eq_some hfind)
      exact UInt16.not_le.2 hlt (by simpa using hge)
    | none =>
      have hall : ∀ i ∈ signers, i < UInt16.ofNat inst.orch.participants.length := by
        intro i hi
        have hnot := List.find?_eq_none.1 hfind i hi
        exact UInt16.not_le.1 (by simpa using hnot)
      dsimp only
      split_ifs with hr
      · cases hts : timestamp.secsSinceEpoch with
        | none =>
          have hsame : (n.initiate inst (createExecutionId "signing" timestamp) timestamp
              (.initiateSigning (createExecutionId "signing" timestamp) message.toUTF8.data.toList
                signers timestamp)).node = n := by
            rw [initiate, hts]
          rw [hsame]
          refine iff_of_false (fun h => h.1 h.2) ?_
          rintro ⟨-, -, i, ts, hc⟩
          cases hts.symm.trans hc.1
        | some ts =>
          rw [n.initiate_node inst _ hts, signingWith_coordinate hinst]
          simp only [not_signingWith_of_ready hinst hr, not_false_iff, true_and, or_false]
          exact ⟨fun h => ⟨hne, hall, h⟩, fun h => h.2.2⟩
      · refine iff_of_false (fun h => h.1 h.2) ?_
        rintro ⟨-, -, i, ts, hc⟩
        exact hr hc.2.1

/-- The list takes the node into `Signing` only if it is a valid signer set, whether it comes in a
call or in a message of the peer `p`, and both ways are open to it or none. -/
structure AcceptsValidOnly (n : Node X) (o : MPCOrchestrator X) (threshold : UInt16) (p : X.PeerId)
    (signers : List PartyIndex) : Prop where
  call : ∀ message timestamp, n.EntersSigning (.act (.initiateSigning message signers timestamp))
    signers → o.ValidSigners threshold signers
  message : ∀ published now eid m timestamp, n.EntersSigning (.receive (some p) published now
    (.coordination (.initiateSigning eid m signers timestamp))) signers →
      o.ValidSigners threshold signers
  same : ∀ message published now eid m timestamp,
    n.EntersSigning (.act (.initiateSigning message signers timestamp)) signers ↔
      n.EntersSigning (.receive (some p) published now
        (.coordination (.initiateSigning eid m signers timestamp))) signers

end Node

open Node

/-- Every keygen that was accepted has a positive threshold. -/
theorem reachable_threshold_pos {n : Node X} (h : (nodeMachine X).Reachable n) {inst : Instance X}
    (hinst : n.mpcOrchestrator = some inst) {kp : KeygenParty X} {m t : UInt16} {ts : UInt64}
    {pc : KeygenPc X} (ht : .keygen kp m t ts pc ∈ inst.tasks) : t ≠ 0 := by
  have hall : n.AllTasks fun _ u => ∀ kp m t ts, u = .keygen kp m t ts .running → t ≠ 0 := by
    apply h.induct
    · rintro _ ⟨id, rfl⟩ inst hinst
      cases hinst
    · intro n l n' hn hl
      refine (allTasks_step_iff hl).2 ⟨hn, ?_⟩
      rintro inst - _ hstarts kp m t ts rfl
      obtain ⟨_, _, _, -, -, hs⟩ := starts_eq_some hstarts
      cases hs with
      | keygen _ _ _ _ _ _ _ hc => exact hc.2.2.1
  exact hall inst (List.mem_append_left _ (Option.mem_toList.2 hinst)) _ ht kp m t ts rfl

/-- After an accepted keygen with the threshold `t`: a signer list is let in only if it is valid,
and by the call exactly when by a message, if and only if it is valid and below the number of
participants, or the node is not ready for signing. -/
theorem signer_sets_valid_iff (hX : X.ParsesPeers) {n : Node X} (h : (nodeMachine X).Reachable n)
    {inst : Instance X} (hinst : n.mpcOrchestrator = some inst) {kp : KeygenParty X}
    {m t : UInt16} {ts : UInt64} {pc : KeygenPc X} (ht : .keygen kp m t ts pc ∈ inst.tasks)
    {p : X.PeerId} (hp : p ≠ n.id) (signers : List PartyIndex) :
    n.AcceptsValidOnly inst.orch t p signers ↔
      (readyForSigning inst.orch.state = true → inst.orch.ValidSigners t signers ∧
        ∀ i ∈ signers, i < UInt16.ofNat inst.orch.participants.length) := by
  obtain ⟨i, hi⟩ := ((reachable_wellFormed hX h).slot inst hinst).localPartyIndex
  constructor
  · intro hv hr
    -- a message with a timestamp after the epoch is let in
    have hc : ∃ i ts, inst.orch.SigningChecks ⟨0⟩ i ts := ⟨i, 0, rfl, hr, hi⟩
    have hmessage : n.EntersSigning (.receive (some p) true 0
        (.coordination (.initiateSigning [] [] signers ⟨0⟩))) signers :=
      (entersSigning_message_iff hinst hp true 0 [] []).2 hc
    have hcall := (hv.same "" true 0 [] [] ⟨0⟩).2 hmessage
    exact ⟨hv.message _ _ _ _ _ hmessage, ((entersSigning_call_iff hinst _).1 hcall).2.1⟩
  · intro hvalid
    refine ⟨?_, ?_, ?_⟩
    · intro message timestamp hcall
      obtain ⟨-, -, _, _, hc⟩ := (entersSigning_call_iff hinst _).1 hcall
      exact (hvalid hc.2.1).1
    · intro published now eid m timestamp hmessage
      obtain ⟨_, _, hc⟩ := (entersSigning_message_iff hinst hp _ _ _ _).1 hmessage
      exact (hvalid hc.2.1).1
    · intro message published now eid m timestamp
      rw [entersSigning_call_iff hinst, entersSigning_message_iff hinst hp]
      constructor
      · exact fun hcall => hcall.2.2
      · rintro ⟨j, s, hc⟩
        obtain ⟨hsigners, hbelow⟩ := hvalid hc.2.1
        refine ⟨?_, hbelow, j, s, hc⟩
        rintro rfl
        exact reachable_threshold_pos h hinst ht
          (UInt16.toNat_inj.1 (Nat.le_zero.1 hsigners.enough))

namespace TwoOfThreeRun

/-- The node `b` takes part in the aux generation and in the keygen with threshold 2 that `a`
initiates for three parties. -/
def labels : List (NodeLabel .plain) :=
  [.receive (some "a") true 0
      (.assignment (.request "a" (.ofEntries [("a", 0), ("b", 1), ("c", 2)]) "a-5")),
    .receive (some "a") true 0 (.coordination (.initiateAux [] []
      (.ofEntries [("c", 2), ("b", 1), ("a", 0)]) ⟨0⟩)),
    .act (.finish 0 (.aux (.ok (7 : ℕ)))), .act (.advance 0), .act (.advance 0),
    .receive (some "a") true 0 (.coordination (.initiateKeygen [] 2 3 ⟨0⟩)),
    .act (.finish 1 (.keygen (.ok ([2] : List UInt8)))), .act (.advance 1), .act (.advance 1)]

/-- The orchestrator of `b` after the keygen. -/
def completed : Instance .plain where
  orch :=
    { (MPCOrchestrator.new "b" ["a", "b", "c"] (.ofEntries [("c", 2), ("b", 1), ("a", 0)]) :
        MPCOrchestrator .plain) with
      state := .keygenCompleted "02"
      auxIncomingTx := some 0
      keygenIncomingTx := some 1
      auxInfo := some (7 : ℕ)
      keyShare := some ([2] : List UInt8) }
  tasks := [.aux ⟨1, 1, 0⟩ 3 0 .done, .keygen ⟨1, 1, 1, (7 : ℕ)⟩ 3 2 0 .done]

def node : Node .plain where
  id := "b"
  peers := 0
  peerList := []
  sessions :=
    .ofEntries [("a-5", .new 0 "a-5" "a" (.ofEntries [("a", 0), ("b", 1), ("c", 2)]))]
  currentSessionId := some "a-5"
  mpcOrchestrator := some completed
  retired := []
  nextChannel := 2

theorem node_reachable : (nodeMachine .plain).Reachable node :=
  ⟨.new "b", labels, ⟨"b", rfl⟩, rfl⟩

theorem node_installed : node.mpcOrchestrator = some completed := rfl

/-- The first two indices are below the number of participants. -/
theorem below_participants {i : PartyIndex} (h : i = 0 ∨ i = 1) :
    i < UInt16.ofNat completed.orch.participants.length := by
  have hlength : completed.orch.participants.length = 3 := rfl
  rw [hlength]
  rcases h with rfl | rfl <;> decide

end TwoOfThreeRun

/-- One signer, listed twice, takes a two-out-of-three node into `Signing`. -/
theorem repeated_signer_accepted : (nodeMachine .plain).Reachable TwoOfThreeRun.node ∧
    .keygen ⟨1, 1, 1, (7 : ℕ)⟩ 3 2 0 .done ∈ TwoOfThreeRun.completed.tasks ∧
    TwoOfThreeRun.node.EntersSigning (.act (.initiateSigning "m" [1, 1] ⟨0⟩)) [1, 1] ∧
    ¬ TwoOfThreeRun.node.AcceptsValidOnly TwoOfThreeRun.completed.orch 2 "a" [1, 1] := by
  have hcall : TwoOfThreeRun.node.EntersSigning (.act (.initiateSigning "m" [1, 1] ⟨0⟩)) [1, 1] :=
    (entersSigning_call_iff TwoOfThreeRun.node_installed "m").2
      ⟨by decide, fun i hi => TwoOfThreeRun.below_participants (.inr (by simpa using hi)), 1, 0,
        rfl, rfl, rfl⟩
  refine ⟨TwoOfThreeRun.node_reachable, List.mem_cons_of_mem _ List.mem_cons_self, hcall,
    fun h => ?_⟩
  exact absurd (h.call "m" ⟨0⟩ hcall).nodup (by decide)

/-- Two different signers are a valid list for it. -/
theorem two_signers_valid :
    TwoOfThreeRun.node.AcceptsValidOnly TwoOfThreeRun.completed.orch 2 "a" [0, 1] := by
  have hother : ("a" : String) ≠ "b" := by decide
  refine (signer_sets_valid_iff Platform.plain_lawful.parsesPeers TwoOfThreeRun.node_reachable
    TwoOfThreeRun.node_installed (List.mem_cons_of_mem _ List.mem_cons_self) hother [0, 1]).2 ?_
  refine fun _ => ⟨⟨by decide, ?_, by decide⟩,
    fun i hi => TwoOfThreeRun.below_participants (List.mem_pair.1 hi)⟩
  intro i hi
  rcases List.mem_pair.1 hi with rfl | rfl
  · exact ⟨"a", by decide⟩
  · exact ⟨"b", by decide⟩

end P2pMpc
