import P2pMpc.Installed

/-!
# The checks of the initiating calls

`initiate_aux_gen`, `initiate_keygen` and `initiate_signing` check their arguments and the protocol
state, send the Initiate message to the network, and only then have it handled locally, where the
handler makes checks of its own. The calls look neither at the aux info nor at the key share, and
let `Idle` pass ("allow Idle for testing") in which there is no aux info yet. So a call that is
`Unprepared` starts the phase on the other nodes and fails at home; `checks_suffice_iff` says that
in a reachable node no other call does.
-/

namespace P2pMpc

open StateMachine MPCOrchestrator

variable {X : Platform}

/-- An initiating RPC call, with its arguments and its reading of the clock. -/
inductive InitiateCall
  | auxGen (timestamp : SystemTime)
  | keygen (threshold : UInt16) (timestamp : SystemTime)
  | signing (message : String) (signers : List PartyIndex) (timestamp : SystemTime)

def Node.initiateCall (n : Node X) : InitiateCall → RpcReply X
  | .auxGen timestamp => n.initiateAuxGen timestamp
  | .keygen threshold timestamp => n.initiateKeygen threshold timestamp
  | .signing message signers timestamp => n.initiateSigning message signers timestamp

/-- What was sent to the network was handled here without an error, and a call that failed here
sent nothing. -/
def RpcReply.Whole (r : RpcReply X) : Prop :=
  (r.broadcast ≠ none → ∃ executionId, r.result = .ok executionId) ∧
    ∀ e, r.result = .error (.locally e) → r.broadcast = none

/-- The call passes its checks, and its local handling then misses the aux info or the key share:
a keygen from `Idle`, or a signing of a node that is among the signers and has no key share. -/
def Node.Unprepared (n : Node X) : InitiateCall → Prop
  | .auxGen _ => False
  | .keygen threshold timestamp =>
      ∃ inst ts, n.mpcOrchestrator = some inst ∧ timestamp.secsSinceEpoch = some ts ∧
        threshold ≠ 0 ∧ threshold ≤ UInt16.ofNat inst.orch.participants.length ∧
        inst.orch.state = .idle
  | .signing _ signers timestamp =>
      ∃ inst ts i, n.mpcOrchestrator = some inst ∧ timestamp.secsSinceEpoch = some ts ∧
        signers ≠ [] ∧ (∀ j ∈ signers, j < UInt16.ofNat inst.orch.participants.length) ∧
        readyForSigning inst.orch.state = true ∧ inst.orch.localPartyIndex = some i ∧
        i ∈ signers ∧ inst.orch.keyShare = none

/-! ### Replies -/

theorem Node.initiateCall_handled (n : Node X) (call : InitiateCall) :
    (n.initiateCall call).Handled n := by
  cases call with
  | auxGen timestamp => exact n.initiateAuxGen_handled timestamp
  | keygen threshold timestamp => exact n.initiateKeygen_handled threshold timestamp
  | signing message signers timestamp => exact n.initiateSigning_handled message signers timestamp

theorem RpcReply.whole_of_refused {r : RpcReply X} (hb : r.broadcast = none) : r.Whole :=
  ⟨fun h => absurd hb h, fun _ _ => hb⟩

/-- A call that reaches its end is whole if the message does not serialize, or if the handler
accepts it. -/
theorem Node.initiate_whole_iff (n : Node X) (inst : Instance X) (eid : List UInt8)
    (timestamp : SystemTime) (msg : CoordinationMessage X) :
    (n.initiate inst eid timestamp msg).Whole ↔ ∀ ts, timestamp.secsSinceEpoch = some ts →
      (inst.orch.handleCoordinationMessage n.nextChannel n.id msg).result = .ok () := by
  unfold initiate
  cases timestamp.secsSinceEpoch with
  | none => exact iff_of_true (RpcReply.whole_of_refused rfl) (by simp)
  | some ts =>
    have hresult : (n.coordinate inst n.id msg).2 =
        (inst.orch.handleCoordinationMessage n.nextChannel n.id msg).result := rfl
    rw [← hresult]
    cases n.coordinate inst n.id msg with
    | mk n' r =>
      cases r with
      | ok => exact iff_of_true ⟨fun _ => ⟨eid, rfl⟩, by rintro _ ⟨⟩⟩ fun _ _ => rfl
      | error e =>
        refine iff_of_false (fun h => ?_) fun h => ?_
        · cases h.2 e rfl
        · cases h ts rfl

/-! ### The handlers past the checks of the calls -/

section Handlers

variable {p : X.PeerId} {inst : Instance X} {timestamp : SystemTime} {ts : UInt64}

theorem Node.WellInstalled.localPartyIndex (h : Node.WellInstalled p inst) :
    ∃ i, inst.orch.localPartyIndex = some i := by
  apply Option.isSome_iff_exists.1
  unfold MPCOrchestrator.localPartyIndex
  rw [h.here]
  exact AList.lookup_isSome.2 h.listed

/-- In `Idle` the orchestrator's own assignment is always accepted. -/
theorem Node.WellInstalled.aux_ok (h : Node.WellInstalled p inst)
    (hts : timestamp.secsSinceEpoch = some ts) (hs : inst.orch.state = .idle) (chan : ChannelId)
    (sender : X.PeerId) (eid : List UInt8) (ps : List X.PeerId) :
    (inst.orch.handleCoordinationMessage chan sender
      (.initiateAux eid ps inst.orch.partyAssignments timestamp)).result = .ok () := by
  obtain ⟨i, hi⟩ := h.localPartyIndex
  show (inst.orch.handleInitiateAux chan sender eid inst.orch.partyAssignments timestamp).result =
    .ok ()
  rcases handleInitiateAux_cases inst.orch chan sender eid inst.orch.partyAssignments timestamp
    with ⟨e, hn, -⟩ | ⟨_, _, -, he⟩
  · exact absurd ⟨hts, hs, hi⟩ (hn i ts)
  · rw [he]

/-- A keygen that may start is accepted exactly after an aux generation. -/
theorem Node.WellInstalled.keygen_ok_iff (h : Node.WellInstalled p inst)
    (hts : timestamp.secsSinceEpoch = some ts) (hr : readyForKeygen inst.orch.state = true)
    {t n : UInt16} (ht : t ≠ 0) (hn : t ≤ n) (chan : ChannelId) (sender : X.PeerId)
    (eid : List UInt8) :
    (inst.orch.handleCoordinationMessage chan sender
      (.initiateKeygen eid t n timestamp)).result = .ok () ↔ inst.orch.state ≠ .idle := by
  obtain ⟨i, hi⟩ := h.localPartyIndex
  have hshape : inst.orch.auxInfo = none ↔ inst.orch.state = .idle := by
    have hs : PhaseShape inst.orch.state inst.tasks none inst.orch.auxInfo
      inst.orch.keyShare := h.shaped
    generalize inst.orch.state = st at hs hr
    cases st <;> simp only [readyForKeygen, Bool.false_eq_true] at hr
    · exact iff_of_true hs.of_idle.2.2.1 rfl
    · obtain ⟨_, _, _, a, -, -, ha, -⟩ := hs.of_auxCompleted
      exact iff_of_false (by rw [ha]; exact Option.some_ne_none a) (by rintro ⟨⟩)
  rw [ne_eq, ← hshape]
  show (inst.orch.handleInitiateKeygen chan sender eid t n timestamp).result = .ok () ↔ _
  rcases handleInitiateKeygen_cases inst.orch chan sender eid t n timestamp with
    ⟨e, hnot, -⟩ | ⟨_, _, -, ⟨ha, he⟩ | ⟨a, ha, he⟩⟩
  · exact absurd ⟨hts, hr, ht, hn, hi⟩ (hnot i ts)
  · rw [he, ha]
    exact iff_of_false (by rintro ⟨⟩) (by simp)
  · rw [he, ha]
    exact iff_of_true rfl (by simp)

/-- A signing that may start is accepted exactly by a node that is not among the signers or has its
key share. -/
theorem Node.WellInstalled.signing_ok_iff (h : Node.WellInstalled p inst)
    (hts : timestamp.secsSinceEpoch = some ts) (hr : readyForSigning inst.orch.state = true)
    {i : PartyIndex} (hi : inst.orch.localPartyIndex = some i) (chan : ChannelId)
    (sender : X.PeerId) (eid m : List UInt8) (signers : List PartyIndex) :
    (inst.orch.handleCoordinationMessage chan sender
      (.initiateSigning eid m signers timestamp)).result = .ok () ↔
        ¬ (i ∈ signers ∧ inst.orch.keyShare = none) := by
  have hshape : inst.orch.auxInfo = none → inst.orch.keyShare = none := by
    have hs : PhaseShape inst.orch.state inst.tasks none inst.orch.auxInfo
      inst.orch.keyShare := h.shaped
    intro ha
    rw [ha] at hs
    generalize inst.orch.state = st, inst.orch.keyShare = k at hs hr
    cases st <;> simp only [readyForSigning, Bool.false_eq_true] at hr
    · exact hs.of_idle.2.2.2
    · obtain ⟨_, _, _, _, _, _, _, _, _, -, -, -, -, ha'⟩ := hs.of_keygenCompleted
      cases ha'
  show (inst.orch.handleInitiateSigning chan sender eid m signers timestamp).result = .ok () ↔ _
  rcases handleInitiateSigning_cases inst.orch chan sender eid m signers timestamp with
    ⟨e, hnot, -⟩ | ⟨j, _, hj, hcase⟩
  · exact absurd ⟨hts, hr, hi⟩ (hnot i ts)
  · obtain rfl : i = j := Option.some.inj (hi.symm.trans hj.2.2)
    rcases hcase with ⟨hout, he⟩ | ⟨hin, hcells, he⟩ | ⟨hin, a, share, -, hk, he⟩ <;> rw [he]
    · exact iff_of_true rfl fun hx => hout hx.1
    · exact iff_of_false (by rintro ⟨⟩) fun hx => hx ⟨hin, hcells.elim hshape fun hk => hk⟩
    · exact iff_of_true rfl fun hx => by simp [hk] at hx

end Handlers

/-! ### What the calls send -/

theorem Node.initiate_broadcast {n : Node X} {inst : Instance X} {eid : List UInt8}
    {timestamp : SystemTime} {msg msg' : CoordinationMessage X}
    (h : (n.initiate inst eid timestamp msg).broadcast = some msg') :
    msg' = msg ∧ ∃ ts, timestamp.secsSinceEpoch = some ts := by
  unfold initiate at h
  cases hts : timestamp.secsSinceEpoch with
  | none => simp [hts] at h
  | some ts =>
    rw [hts] at h
    generalize n.coordinate inst n.id msg = r at h
    obtain ⟨n', r⟩ := r
    cases r <;> cases h <;> exact ⟨rfl, ts, rfl⟩

/-- What `initiate_aux_gen` sends has passed its checks. -/
theorem Node.initiateAuxGen_broadcast {n : Node X} {timestamp : SystemTime}
    {msg : CoordinationMessage X} (h : (n.initiateAuxGen timestamp).broadcast = some msg) :
    ∃ inst eid ts, n.mpcOrchestrator = some inst ∧ timestamp.secsSinceEpoch = some ts ∧
      inst.orch.state = .idle ∧
      msg = .initiateAux eid inst.orch.participants inst.orch.partyAssignments timestamp := by
  unfold initiateAuxGen at h
  cases hinst : n.mpcOrchestrator with
  | none => simp [hinst] at h
  | some inst =>
    simp only [hinst] at h
    split at h
    · next hs =>
      obtain ⟨rfl, ts, hts⟩ := initiate_broadcast h
      exact ⟨inst, _, ts, rfl, hts, hs, rfl⟩
    · cases h

/-- What `initiate_keygen` sends has passed its checks. -/
theorem Node.initiateKeygen_broadcast {n : Node X} {t : UInt16} {timestamp : SystemTime}
    {msg : CoordinationMessage X} (h : (n.initiateKeygen t timestamp).broadcast = some msg) :
    ∃ inst eid ts, n.mpcOrchestrator = some inst ∧ timestamp.secsSinceEpoch = some ts ∧
      readyForKeygen inst.orch.state = true ∧ t ≠ 0 ∧
      t ≤ UInt16.ofNat inst.orch.participants.length ∧
      msg = .initiateKeygen eid t (UInt16.ofNat inst.orch.participants.length) timestamp := by
  unfold initiateKeygen at h
  cases hinst : n.mpcOrchestrator with
  | none => simp [hinst] at h
  | some inst =>
    simp only [hinst] at h
    split_ifs at h with h0 hle hr
    obtain ⟨rfl, ts, hts⟩ := initiate_broadcast h
    exact ⟨inst, _, ts, rfl, hts, hr, h0, UInt16.not_lt.1 hle, rfl⟩

/-- What `initiate_signing` sends carries its arguments. -/
theorem Node.initiateSigning_broadcast {n : Node X} {message : String}
    {signers : List PartyIndex} {timestamp : SystemTime} {msg : CoordinationMessage X}
    (h : (n.initiateSigning message signers timestamp).broadcast = some msg) :
    ∃ inst eid ts, n.mpcOrchestrator = some inst ∧ timestamp.secsSinceEpoch = some ts ∧
      readyForSigning inst.orch.state = true ∧
      msg = .initiateSigning eid message.toUTF8.data.toList signers timestamp := by
  unfold initiateSigning at h
  cases hinst : n.mpcOrchestrator with
  | none => simp [hinst] at h
  | some inst =>
    simp only [hinst] at h
    by_cases hne : signers = []
    · simp [hne] at h
    · rw [if_neg hne] at h
      cases hfind : signers.find? (· ≥ UInt16.ofNat inst.orch.participants.length) with
      | some signer => simp [hfind] at h
      | none =>
        simp only [hfind] at h
        split_ifs at h with hr
        obtain ⟨rfl, ts, hts⟩ := initiate_broadcast h
        exact ⟨inst, _, ts, rfl, hts, hr, rfl⟩

theorem Node.initiate_ok {n : Node X} {inst : Instance X} {eid eid' : List UInt8}
    {timestamp : SystemTime} {msg : CoordinationMessage X}
    (h : (n.initiate inst eid timestamp msg).result = .ok eid') :
    eid' = eid ∧ (inst.orch.handleCoordinationMessage n.nextChannel n.id msg).result = .ok () ∧
      (n.initiate inst eid timestamp msg).node = (n.coordinate inst n.id msg).1 := by
  cases hts : timestamp.secsSinceEpoch with
  | none => simp [initiate, hts] at h
  | some ts =>
    have hnode := n.initiate_node inst eid hts msg
    have hresult : (n.coordinate inst n.id msg).2 =
        (inst.orch.handleCoordinationMessage n.nextChannel n.id msg).result := rfl
    rw [initiate, hts] at h
    generalize n.coordinate inst n.id msg = r at h hresult hnode
    obtain ⟨n', r⟩ := r
    cases r <;> cases h
    exact ⟨rfl, hresult.symm, hnode⟩

/-- An `initiate_signing` that succeeds so far has the node in `Signing` under the execution id of
its answer, with a new task if the node is among the signers. -/
theorem Node.initiateSigning_ok {n : Node X} {message : String} {signers : List PartyIndex}
    {timestamp : SystemTime} {eid : List UInt8}
    (h : (n.initiateSigning message signers timestamp).result = .ok eid) :
    eid = createExecutionId "signing" timestamp ∧ ∃ inst inst' i ts,
      n.mpcOrchestrator = some inst ∧ inst.orch.SigningChecks timestamp i ts ∧
      (n.initiateSigning message signers timestamp).node.mpcOrchestrator = some inst' ∧
      (n.initiateSigning message signers timestamp).node.nextChannel = n.nextChannel + 1 ∧
      inst'.orch.roster = inst.orch.roster ∧
      inst'.orch.state = .signing n.id eid message.toUTF8.data.toList signers ∧
      ((i ∉ signers ∧ inst'.tasks = inst.tasks) ∨
        (i ∈ signers ∧ ∃ a share, inst'.tasks = inst.tasks ++ [.signing
          (.new i n.nextChannel share a) signers message.toUTF8.data.toList ts .running])) := by
  unfold initiateSigning at h ⊢
  cases hinst : n.mpcOrchestrator with
  | none => simp [hinst] at h
  | some inst =>
    simp only [hinst] at h ⊢
    by_cases hne : signers = []
    · simp [hne] at h
    · rw [if_neg hne] at h ⊢
      cases hfind : signers.find? (· ≥ UInt16.ofNat inst.orch.participants.length) with
      | some signer => simp [hfind] at h
      | none =>
        simp only [hfind] at h ⊢
        split_ifs at h ⊢ with hr
        obtain ⟨rfl, hok, hnode⟩ := initiate_ok h
        rw [hnode]
        have hok' : (inst.orch.handleInitiateSigning n.nextChannel n.id
          (createExecutionId "signing" timestamp) message.toUTF8.data.toList signers
            timestamp).result = .ok () := hok
        rcases handleInitiateSigning_cases inst.orch n.nextChannel n.id
            (createExecutionId "signing" timestamp) message.toUTF8.data.toList signers
              timestamp with
          ⟨_, -, he⟩ | ⟨i, ts, hc, ⟨hi, he⟩ | ⟨-, -, he⟩ | ⟨hi, a, share, -, -, he⟩⟩ <;>
            rw [he] at hok'
        · cases hok'
        · refine ⟨rfl, inst, _, i, ts, rfl, hc, rfl, rfl, handle_roster _ _ _ _, ?_,
            .inl ⟨hi, ?_⟩⟩ <;>
            simp only [MPCOrchestrator.handleCoordinationMessage, he]
          simp
        · cases hok'
        · refine ⟨rfl, inst, _, i, ts, rfl, hc, rfl, rfl, handle_roster _ _ _ _, ?_,
            .inr ⟨hi, a, share, ?_⟩⟩ <;>
            simp only [MPCOrchestrator.handleCoordinationMessage, he]
          rfl

section Calls

variable {n : Node X} {inst : Instance X}

theorem Node.initiateAuxGen_whole (hinst : n.mpcOrchestrator = some inst)
    (hin : Node.WellInstalled n.id inst) (timestamp : SystemTime) :
    (n.initiateAuxGen timestamp).Whole := by
  simp only [Node.initiateAuxGen, hinst]
  split
  · next hs =>
    apply (n.initiate_whole_iff _ _ _ _).2
    intro ts hts
    exact hin.aux_ok hts hs _ _ _ _
  · exact RpcReply.whole_of_refused rfl

theorem Node.initiateKeygen_whole_iff (hinst : n.mpcOrchestrator = some inst)
    (hin : Node.WellInstalled n.id inst) (threshold : UInt16) (timestamp : SystemTime) :
    (n.initiateKeygen threshold timestamp).Whole ↔
      ¬ n.Unprepared (.keygen threshold timestamp) := by
  simp only [Node.initiateKeygen, hinst, Node.Unprepared, Option.some.injEq]
  split_ifs with h0 hle hr
  · refine iff_of_true (RpcReply.whole_of_refused rfl) ?_
    rintro ⟨_, _, -, -, hne, -⟩
    exact hne h0
  · refine iff_of_true (RpcReply.whole_of_refused rfl) ?_
    rintro ⟨_, _, rfl, -, -, hle', -⟩
    exact UInt16.not_le.2 hle hle'
  · -- the call passes, and the handler looks for the aux info
    rw [n.initiate_whole_iff]
    have hle' := UInt16.not_lt.1 hle
    constructor
    · rintro hok ⟨_, ts, rfl, hts, -, -, hidle⟩
      exact (hin.keygen_ok_iff hts hr h0 hle' _ _ _).1 (hok ts hts) hidle
    · intro hno ts hts
      refine (hin.keygen_ok_iff hts hr h0 hle' _ _ _).2 fun hidle => ?_
      exact hno ⟨inst, ts, rfl, hts, h0, hle', hidle⟩
  · refine iff_of_true (RpcReply.whole_of_refused rfl) ?_
    rintro ⟨_, _, rfl, -, -, -, hidle⟩
    exact hr (by rw [hidle]; rfl)

theorem Node.initiateSigning_whole_iff (hinst : n.mpcOrchestrator = some inst)
    (hin : Node.WellInstalled n.id inst) (message : String) (signers : List PartyIndex)
    (timestamp : SystemTime) : (n.initiateSigning message signers timestamp).Whole ↔
      ¬ n.Unprepared (.signing message signers timestamp) := by
  simp only [Node.initiateSigning, hinst, Node.Unprepared, Option.some.injEq]
  by_cases hne : signers = []
  · rw [if_pos hne]
    refine iff_of_true (RpcReply.whole_of_refused rfl) ?_
    rintro ⟨_, _, _, -, -, h0, -⟩
    exact h0 hne
  · rw [if_neg hne]
    cases hfind : signers.find? (· ≥ UInt16.ofNat inst.orch.participants.length) with
    | some signer =>
      refine iff_of_true (RpcReply.whole_of_refused rfl) ?_
      rintro ⟨_, _, _, rfl, -, -, hall, -⟩
      have hge := List.find?_some hfind
      have hlt := hall signer (List.mem_of_find?_eq_some hfind)
      exact UInt16.not_le.2 hlt (by simpa using hge)
    | none =>
      have hall : ∀ j ∈ signers, j < UInt16.ofNat inst.orch.participants.length := by
        intro j hj
        have hnot := List.find?_eq_none.1 hfind j hj
        exact UInt16.not_le.1 (by simpa using hnot)
      dsimp only
      split_ifs with hr
      · -- the call passes, and the handler of a signer looks for the key share
        rw [n.initiate_whole_iff]
        obtain ⟨i, hi⟩ := hin.localPartyIndex
        constructor
        · rintro hok ⟨_, ts, j, rfl, hts, -, -, -, hj, hjs, hk⟩
          exact (hin.signing_ok_iff hts hr hj _ _ _ _ _).1 (hok ts hts) ⟨hjs, hk⟩
        · intro hno ts hts
          refine (hin.signing_ok_iff hts hr hi _ _ _ _ _).2 fun hik => ?_
          exact hno ⟨inst, ts, i, rfl, hts, hne, hall, hr, hi, hik.1, hik.2⟩
      · refine iff_of_true (RpcReply.whole_of_refused rfl) ?_
        rintro ⟨_, _, _, rfl, -, -, -, hr', -⟩
        exact hr hr'

end Calls

/-- In a reachable node, a call starts the phase on the other nodes and fails at home exactly if it
is unprepared. -/
theorem checks_suffice_iff (hX : X.ParsesPeers) {n : Node X} (h : (nodeMachine X).Reachable n)
    (call : InitiateCall) : (n.initiateCall call).Whole ↔ ¬ n.Unprepared call := by
  have hslot := (reachable_wellFormed hX h).slot
  cases hinst : n.mpcOrchestrator with
  | none =>
    refine iff_of_true (RpcReply.whole_of_refused ?_) ?_
    · cases call <;> simp [Node.initiateCall, Node.initiateAuxGen, Node.initiateKeygen,
        Node.initiateSigning, hinst]
    · cases call <;> simp [Node.Unprepared, hinst]
  | some inst =>
    have hin := hslot inst hinst
    cases call with
    | auxGen timestamp => exact iff_of_true (Node.initiateAuxGen_whole hinst hin timestamp) id
    | keygen threshold timestamp =>
      exact Node.initiateKeygen_whole_iff hinst hin threshold timestamp
    | signing message signers timestamp =>
      exact Node.initiateSigning_whole_iff hinst hin message signers timestamp

/-! ### A keygen from `Idle` -/

namespace KeygenFromIdle

/-- The node `b` after it has accepted the assignment of `a`. -/
def node : Node .plain where
  id := "b"
  peers := 0
  peerList := []
  sessions := .ofEntries [("s", .new 0 "s" "a" (.ofEntries [("a", 0), ("b", 1)]))]
  currentSessionId := some "s"
  mpcOrchestrator := some ⟨.ofAssignments "b" (.ofEntries [("a", 0), ("b", 1)]), []⟩
  retired := []
  nextChannel := 0

theorem node_reachable : (nodeMachine .plain).Reachable node :=
  ⟨_, [.receive (some "a") true 0 (.assignment
    (.request "a" (.ofEntries [("a", 0), ("b", 1)]) "s"))], ⟨"b", rfl⟩, rfl⟩

end KeygenFromIdle

/-- A keygen initiated right after the assignment is sent to the other nodes and fails locally. -/
theorem idle_keygen_half_started : (nodeMachine .plain).Reachable KeygenFromIdle.node ∧
    ¬ (KeygenFromIdle.node.initiateCall (.keygen 1 ⟨0⟩)).Whole := by
  refine ⟨KeygenFromIdle.node_reachable, fun h => ?_⟩
  cases h.2 .auxInfoMissing rfl

/-- The aux generation initiated there is handled locally too. -/
theorem idle_aux_whole : (KeygenFromIdle.node.initiateCall (.auxGen ⟨0⟩)).Whole :=
  (checks_suffice_iff Platform.plain_lawful.parsesPeers KeygenFromIdle.node_reachable _).2
    fun h => h

end P2pMpc
