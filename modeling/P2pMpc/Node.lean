import P2pMpc.Router

/-!
# A node

The event loop of `network.rs` and the RPC calls of `rpc.rs` that act on what they share. A node is
stepped by the gossip messages it receives and by its own actions: swarm events, RPC calls, the
tasks of its orchestrator, and the protocol messages those tasks send. Whatever is to be published
goes through the command channel, so an action returns the commands it sends there.

A handler of the orchestrator runs here in one piece; `run_call_uninterrupted` says which
lock-level run that is.
-/

namespace P2pMpc

open StateMachine

variable {X : Platform}

/-- The content of a gossip message, decoded at its topic; `other` is what does not decode and what
is on a topic without a handler. -/
inductive Gossip (X : Platform)
  | assignment (msg : AssignmentMessage)
  | coordination (msg : CoordinationMessage X)
  | protocol (φ : Phase) (msg : MpcAuxMessage X)
  | other (topic : String) (data : List UInt8)

/-- `NetworkCommand`; `send` stands for `SendAuxMessage`, `SendKeygenMessage` and
`SendSigningMessage`. -/
inductive NetworkCommand (X : Platform)
  | broadcast (g : Gossip X)
  | send (φ : Phase) (out : Outgoing (X.Msg φ))

/-- A value sent into the channel of a party. -/
structure Forwarded (X : Platform) where
  phase : Phase
  chan : ChannelId
  incoming : Incoming (X.Msg phase)

/-- What the handling of a gossip message leaves: the node, what it publishes, and what it forwards
to a party. -/
structure Effect (X : Platform) where
  node : Node X
  published : Option (Gossip X)
  forwarded : Option (Forwarded X)

/-- The errors of the initiating RPC calls. -/
inductive InitiateError (X : Platform)
  | notInitialized
  | auxState (state : ProtocolState X)
  | keygenState (state : ProtocolState X)
  | signingState (state : ProtocolState X)
  | thresholdZero
  | thresholdExceeds (threshold totalParties : UInt16)
  | noSigners
  | invalidSigner (signer totalParties : UInt16)
  | notSerialized
  | locally (e : HandlerError X)

/-- The `message` of a failed call. -/
def InitiateError.text (debug : ProtocolState X → String) : InitiateError X → String
  | .notInitialized => "MPC orchestrator not initialized. Please assign peer indices first."
  | .auxState s => "Cannot initiate aux generation. Current state: " ++ debug s
  | .keygenState s =>
      "Cannot initiate keygen. Must complete aux generation first. Current state: " ++ debug s
  | .signingState s =>
      "Cannot initiate signing. Must complete keygen first. Current state: " ++ debug s
  | .thresholdZero => "Threshold must be at least 1"
  | .thresholdExceeds t n => "Threshold (" ++ toString t.toNat ++ ") cannot exceed total parties ("
      ++ toString n.toNat ++ ")"
  | .noSigners => "Signers list cannot be empty"
  | .invalidSigner i n => "Invalid signer index: " ++ toString i.toNat ++ " (total parties: " ++
      toString n.toNat ++ ")"
  | .notSerialized =>
      "Failed to serialize coordination message: SystemTime must be later than UNIX_EPOCH"
  | .locally e => "Failed to process locally: " ++ e.text debug

/-- What an initiating RPC call leaves: the node, the message it broadcasts, and the execution id
it answers with. -/
structure RpcReply (X : Platform) where
  node : Node X
  broadcast : Option (CoordinationMessage X)
  result : Except (InitiateError X) (List UInt8)

/-- The task of the phase is running its protocol, and so may send messages. -/
def Task.runs : Phase → Task X → Bool
  | .aux, .aux _ _ _ .running => true
  | .keygen, .keygen _ _ _ _ .running => true
  | .signing, .signing _ _ _ _ .running => true
  | _, _ => false

namespace Node

/-! ### The event loop -/

/-- The instance after the installed orchestrator has handled a coordination message. -/
def coordinate (n : Node X) (inst : Instance X) (sender : X.PeerId)
    (msg : CoordinationMessage X) : Node X × Except (HandlerError X) Unit :=
  let r := inst.orch.handleCoordinationMessage n.nextChannel sender msg
  ({ n with
      mpcOrchestrator := some ⟨r.orch, inst.tasks ++ r.spawned.toList⟩
      nextChannel := n.nextChannel + 1 },
    r.result)

/-- A message on the coordination topic. -/
def onCoordination (n : Node X) (source : Option X.PeerId) (msg : CoordinationMessage X) : Node X :=
  match source with
  | none => n
  | some p =>
    match n.mpcOrchestrator with
    | none => n
    | some inst => (n.coordinate inst p msg).1

/-- A message on the topic of a phase. -/
def onProtocol (n : Node X) (φ : Phase) (msg : MpcAuxMessage X) : Option (Forwarded X) :=
  match forwardIncoming n.id n.mpcOrchestrator φ msg with
  | .error _ => none
  | .ok (chan, incoming) => some ⟨φ, chan, incoming⟩

/-- The handling of a gossip message whose authenticated source is `source`. -/
def onMessage (n : Node X) (source : Option X.PeerId) (published : Bool) (now : UInt64)
    (g : Gossip X) : Effect X :=
  if source = some n.id then ⟨n, none, none⟩
  else
    match g with
    | .assignment msg =>
        let r := n.handleAssignmentMessage published now msg
        ⟨r.1, r.2.map .assignment, none⟩
    | .coordination msg => ⟨n.onCoordination source msg, none, none⟩
    | .protocol φ msg => ⟨n, none, n.onProtocol φ msg⟩
    | .other _ _ => ⟨n, none, none⟩

/-- An identify message received from a peer. -/
def onIdentify (n : Node X) (peer : X.PeerId) : Node X :=
  if peer = n.id then n
  else if peer ∈ n.peerList then n
  else { n with peers := n.peers + 1, peerList := n.peerList ++ [peer] }

/-- A connection to a peer closed. -/
def onConnectionClosed (n : Node X) (peer : X.PeerId) : Node X :=
  { n with peerList := n.peerList.filter (· ≠ peer), peers := n.peers - 1 }

/-! ### RPC calls -/

/-- The end of an initiating RPC call: the message is serialized and sent to the network, then
handled here as a message of the node itself. -/
def initiate (n : Node X) (inst : Instance X) (executionId : List UInt8) (timestamp : SystemTime)
    (msg : CoordinationMessage X) : RpcReply X :=
  match timestamp.secsSinceEpoch with
  | none => ⟨n, none, .error .notSerialized⟩
  | some _ =>
    match n.coordinate inst n.id msg with
    | (n', .ok ()) => ⟨n', some msg, .ok executionId⟩
    | (n', .error e) => ⟨n', some msg, .error (.locally e)⟩

/-- `initiate_aux_gen`. -/
def initiateAuxGen (n : Node X) (timestamp : SystemTime) : RpcReply X :=
  match n.mpcOrchestrator with
  | none => ⟨n, none, .error .notInitialized⟩
  | some inst =>
    match inst.orch.state with
    | .idle =>
      let executionId := MPCOrchestrator.createExecutionId "aux" timestamp
      n.initiate inst executionId timestamp
        (.initiateAux executionId inst.orch.participants inst.orch.partyAssignments timestamp)
    | s => ⟨n, none, .error (.auxState s)⟩

/-- `initiate_keygen`. -/
def initiateKeygen (n : Node X) (threshold : UInt16) (timestamp : SystemTime) : RpcReply X :=
  match n.mpcOrchestrator with
  | none => ⟨n, none, .error .notInitialized⟩
  | some inst =>
    let totalParties := UInt16.ofNat inst.orch.participants.length
    if threshold = 0 then ⟨n, none, .error .thresholdZero⟩
    else if threshold > totalParties then
      ⟨n, none, .error (.thresholdExceeds threshold totalParties)⟩
    else if MPCOrchestrator.readyForKeygen inst.orch.state then
      let executionId := MPCOrchestrator.createExecutionId "keygen" timestamp
      n.initiate inst executionId timestamp
        (.initiateKeygen executionId threshold totalParties timestamp)
    else ⟨n, none, .error (.keygenState inst.orch.state)⟩

/-- `initiate_signing`, up to its wait for the signature. -/
def initiateSigning (n : Node X) (message : String) (signers : List PartyIndex)
    (timestamp : SystemTime) : RpcReply X :=
  match n.mpcOrchestrator with
  | none => ⟨n, none, .error .notInitialized⟩
  | some inst =>
    let totalParties := UInt16.ofNat inst.orch.participants.length
    if signers = [] then ⟨n, none, .error .noSigners⟩
    else
      match signers.find? (· ≥ totalParties) with
      | some signer => ⟨n, none, .error (.invalidSigner signer totalParties)⟩
      | none =>
        if MPCOrchestrator.readyForSigning inst.orch.state then
          let executionId := MPCOrchestrator.createExecutionId "signing" timestamp
          n.initiate inst executionId timestamp
            (.initiateSigning executionId message.toUTF8.data.toList signers timestamp)
        else ⟨n, none, .error (.signingState inst.orch.state)⟩

end Node

/-! ### Steps -/

/-- What a node does by itself. -/
inductive Action (X : Platform)
  | identify (peer : X.PeerId)
  | connectionClosed (peer : X.PeerId)
  | broadcast (g : Gossip X)
  | assignPeerIndices (now : UInt64)
  | initiateAuxGen (timestamp : SystemTime)
  | initiateKeygen (threshold : UInt16) (timestamp : SystemTime)
  | initiateSigning (message : String) (signers : List PartyIndex) (timestamp : SystemTime)
  | finish (task : ℕ) (r : Outcome X)
  | advance (task : ℕ)
  | emit (φ : Phase) (out : Outgoing (X.Msg φ))

/-- The steps of a node. -/
inductive NodeLabel (X : Platform)
  | receive (source : Option X.PeerId) (published : Bool) (now : UInt64) (g : Gossip X)
  | act (a : Action X)

namespace Node

/-- Some task of the node, one of an orchestrator since replaced included, runs the phase. -/
def canEmit (n : Node X) (φ : Phase) : Bool :=
  (n.mpcOrchestrator.toList ++ n.retired).any fun inst => inst.tasks.any fun t => t.runs φ

/-- A step of a task of the installed orchestrator. -/
def taskStep (n : Node X) (l : Label X) : Option (Node X) :=
  match n.mpcOrchestrator with
  | none => none
  | some inst => (Config.step ⟨inst, none⟩ l).map fun c => { n with mpcOrchestrator := some c.inst }

/-- What an RPC call leaves, with the command it sent. -/
def ofReply (r : RpcReply X) : Node X × List (NetworkCommand X) :=
  (r.node, r.broadcast.toList.map fun m => .broadcast (.coordination m))

/-- An action of the node: the node after it, and the commands it sent to the event loop. -/
def act (n : Node X) : Action X → Option (Node X × List (NetworkCommand X))
  | .identify peer => some (n.onIdentify peer, [])
  | .connectionClosed peer => some (n.onConnectionClosed peer, [])
  | .broadcast g => some (n, [.broadcast g])
  | .assignPeerIndices now =>
      let r := n.assignPeerIndices now
      some (r.1, [.broadcast (.assignment r.2)])
  | .initiateAuxGen timestamp => some (ofReply (n.initiateAuxGen timestamp))
  | .initiateKeygen threshold timestamp => some (ofReply (n.initiateKeygen threshold timestamp))
  | .initiateSigning message signers timestamp =>
      some (ofReply (n.initiateSigning message signers timestamp))
  | .finish i r => (n.taskStep (.finish i r)).map fun n' => (n', [])
  | .advance i => (n.taskStep (.advance i)).map fun n' => (n', [])
  | .emit φ out => if n.canEmit φ then some (n, [.send φ out]) else none

/-- A step of a node. -/
def step (n : Node X) : NodeLabel X → Option (Node X)
  | .receive source published now g => some (n.onMessage source published now g).node
  | .act a => (n.act a).map Prod.fst

end Node

/-! ### What a step does to the orchestrator -/

/-- The reply of an RPC call: nothing was done, or its message was sent and handled. -/
def RpcReply.Handled (n : Node X) (r : RpcReply X) : Prop :=
  (r.broadcast = none ∧ r.node = n) ∨
    ∃ inst msg, n.mpcOrchestrator = some inst ∧ r.broadcast = some msg ∧
      r.node = (n.coordinate inst n.id msg).1

namespace Node

variable {n n' : Node X}

theorem initiate_handled {inst : Instance X} (h : n.mpcOrchestrator = some inst)
    (eid : List UInt8) (timestamp : SystemTime) (msg : CoordinationMessage X) :
    (n.initiate inst eid timestamp msg).Handled n := by
  unfold initiate
  cases timestamp.secsSinceEpoch with
  | none => exact .inl ⟨rfl, rfl⟩
  | some ts =>
    refine .inr ⟨inst, msg, h, ?_⟩
    cases n.coordinate inst n.id msg with
    | mk n' r => cases r <;> exact ⟨rfl, rfl⟩

/-- The node after a call whose message serializes is the one that has handled the message. -/
theorem initiate_node (n : Node X) (inst : Instance X) (eid : List UInt8) {timestamp : SystemTime}
    {ts : UInt64} (hts : timestamp.secsSinceEpoch = some ts) (msg : CoordinationMessage X) :
    (n.initiate inst eid timestamp msg).node = (n.coordinate inst n.id msg).1 := by
  unfold initiate
  rw [hts]
  cases n.coordinate inst n.id msg with
  | mk n' r => cases r <;> rfl

theorem initiateAuxGen_handled (n : Node X) (timestamp : SystemTime) :
    (n.initiateAuxGen timestamp).Handled n := by
  unfold initiateAuxGen
  cases h : n.mpcOrchestrator with
  | none => exact .inl ⟨rfl, rfl⟩
  | some inst =>
    dsimp only
    split
    · exact initiate_handled h _ _ _
    · exact .inl ⟨rfl, rfl⟩

theorem initiateKeygen_handled (n : Node X) (threshold : UInt16) (timestamp : SystemTime) :
    (n.initiateKeygen threshold timestamp).Handled n := by
  unfold initiateKeygen
  cases h : n.mpcOrchestrator with
  | none => exact .inl ⟨rfl, rfl⟩
  | some inst =>
    dsimp only
    split_ifs
    · exact .inl ⟨rfl, rfl⟩
    · exact .inl ⟨rfl, rfl⟩
    · exact initiate_handled h _ _ _
    · exact .inl ⟨rfl, rfl⟩

theorem initiateSigning_handled (n : Node X) (message : String) (signers : List PartyIndex)
    (timestamp : SystemTime) : (n.initiateSigning message signers timestamp).Handled n := by
  unfold initiateSigning
  cases h : n.mpcOrchestrator with
  | none => exact .inl ⟨rfl, rfl⟩
  | some inst =>
    dsimp only
    split_ifs
    · exact .inl ⟨rfl, rfl⟩
    · cases signers.find? (· ≥ UInt16.ofNat inst.orch.participants.length) with
      | some signer => exact .inl ⟨rfl, rfl⟩
      | none => exact initiate_handled h _ _ _
    · cases signers.find? (· ≥ UInt16.ofNat inst.orch.participants.length) with
      | some signer => exact .inl ⟨rfl, rfl⟩
      | none => exact .inl ⟨rfl, rfl⟩

/-- The coordination message a step makes the installed orchestrator handle, with its sender: the
authenticated source of a received message, or the node itself. -/
def handled (n : Node X) : NodeLabel X → Option (X.PeerId × CoordinationMessage X)
  | .receive (some p) _ _ (.coordination msg) => if p = n.id then none else some (p, msg)
  | .act (.initiateAuxGen timestamp) => (n.initiateAuxGen timestamp).broadcast.map (n.id, ·)
  | .act (.initiateKeygen threshold timestamp) =>
      (n.initiateKeygen threshold timestamp).broadcast.map (n.id, ·)
  | .act (.initiateSigning message signers timestamp) =>
      (n.initiateSigning message signers timestamp).broadcast.map (n.id, ·)
  | _ => none

/-- The commands of an action: the message of a party or of a broadcast call, the Request of an
assignment, the coordination message of a call that broadcasts, or none. -/
theorem act_sends {n : Node X} {a : Action X} {r : Node X × List (NetworkCommand X)}
    (h : n.act a = some r) :
    (∃ φ out, a = .emit φ out ∧ n.canEmit φ = true ∧ r = (n, [.send φ out])) ∨
    (∃ g, a = .broadcast g ∧ r = (n, [.broadcast g])) ∨
    (∃ now, a = .assignPeerIndices now ∧
      r.2 = [.broadcast (.assignment (n.assignPeerIndices now).2)]) ∨
    (∃ p msg, n.handled (.act a) = some (p, msg) ∧ r.2 = [.broadcast (.coordination msg)]) ∨
    ((∀ φ out, a ≠ .emit φ out) ∧ r.2 = []) := by
  have hreply : ∀ reply : RpcReply X, r = ofReply reply →
      n.handled (.act a) = reply.broadcast.map (n.id, ·) →
      (∃ p msg, n.handled (.act a) = some (p, msg) ∧ r.2 = [.broadcast (.coordination msg)]) ∨
        r.2 = [] := by
    rintro reply rfl hhandled
    cases hb : reply.broadcast with
    | none => exact .inr (by simp [ofReply, hb])
    | some msg => exact .inl ⟨n.id, msg, by simp [hhandled, hb], by simp [ofReply, hb]⟩
  cases a with
  | emit φ out =>
    obtain ⟨hcan, he⟩ := Option.ite_none_right_eq_some.1 h
    exact .inl ⟨φ, out, rfl, hcan, (Option.some.inj he).symm⟩
  | broadcast g => exact .inr (.inl ⟨g, rfl, (Option.some.inj h).symm⟩)
  | assignPeerIndices now =>
    obtain rfl := Option.some.inj h
    exact .inr (.inr (.inl ⟨now, rfl, rfl⟩))
  | initiateAuxGen | initiateKeygen | initiateSigning =>
    refine .inr (.inr (.inr ?_))
    exact (hreply _ (Option.some.inj h).symm rfl).imp_right fun he => ⟨by rintro _ _ ⟨⟩, he⟩
  | identify | connectionClosed =>
    obtain rfl := Option.some.inj h
    exact .inr (.inr (.inr (.inr ⟨by rintro _ _ ⟨⟩, rfl⟩)))
  | finish i r | advance i =>
    obtain ⟨m, -, rfl⟩ := Option.map_eq_some_iff.1 h
    exact .inr (.inr (.inr (.inr ⟨by rintro _ _ ⟨⟩, rfl⟩)))

/-- What one step can do to the installed orchestrator. -/
inductive SlotStep (n : Node X) (l : NodeLabel X) : Option (Instance X) → Prop
  | keep : SlotStep n l n.mpcOrchestrator
  | install (assignments : HashMap String ℕ) :
      SlotStep n l (some ⟨.ofAssignments n.id assignments, []⟩)
  | coordinate (inst : Instance X) (p : X.PeerId) (msg : CoordinationMessage X)
      (hinst : n.mpcOrchestrator = some inst) (hl : n.handled l = some (p, msg)) :
      SlotStep n l (n.coordinate inst p msg).1.mpcOrchestrator
  | finish (inst : Instance X) (i : ℕ) (r : Outcome X) (c : Config X)
      (hinst : n.mpcOrchestrator = some inst)
      (hc : Config.step ⟨inst, none⟩ (.finish i r) = some c) : SlotStep n l (some c.inst)
  | advance (inst : Instance X) (i : ℕ) (c : Config X) (hinst : n.mpcOrchestrator = some inst)
      (hc : Config.step ⟨inst, none⟩ (.advance i) = some c) : SlotStep n l (some c.inst)

/-- The peers after a step: only swarm events change them. -/
def peersAfter (n : Node X) : NodeLabel X → List X.PeerId
  | .act (.identify peer) => (n.onIdentify peer).peerList
  | .act (.connectionClosed peer) => (n.onConnectionClosed peer).peerList
  | _ => n.peerList

theorem slotStep_of_handled {r : RpcReply X} {l : NodeLabel X} (hr : r.Handled n)
    (hl : n.handled l = r.broadcast.map (n.id, ·)) :
    r.node.id = n.id ∧ r.node.peerList = n.peerList ∧ SlotStep n l r.node.mpcOrchestrator := by
  rcases hr with ⟨-, he⟩ | ⟨inst, msg, hinst, hb, he⟩
  · rw [he]
    exact ⟨rfl, rfl, .keep⟩
  · rw [he]
    rw [hb, Option.map_some] at hl
    exact ⟨rfl, rfl, .coordinate inst n.id msg hinst hl⟩

theorem taskStep_eq_some {l : Label X} : n.taskStep l = some n' ↔
    ∃ inst c, n.mpcOrchestrator = some inst ∧ Config.step ⟨inst, none⟩ l = some c ∧
      n' = { n with mpcOrchestrator := some c.inst } := by
  unfold taskStep
  cases n.mpcOrchestrator with
  | none => simp
  | some inst =>
    simp only [Option.map_eq_some_iff]
    constructor
    · rintro ⟨c, hc, rfl⟩
      exact ⟨inst, c, rfl, hc, rfl⟩
    · rintro ⟨_, c, hinst, hc, rfl⟩
      cases hinst
      exact ⟨c, hc, rfl⟩

/-- A message leaves the node alone, or is an assignment or a coordination message of another
peer that it handles. -/
theorem onMessage_cases (n : Node X) (source : Option X.PeerId) (published : Bool) (now : UInt64)
    (g : Gossip X) :
    (n.onMessage source published now g).node = n ∨
    (∃ msg, g = .assignment msg ∧ source ≠ some n.id ∧ (n.onMessage source published now g).node =
      (n.handleAssignmentMessage published now msg).1) ∨
    ∃ p msg inst, g = .coordination msg ∧ source = some p ∧ p ≠ n.id ∧
      n.mpcOrchestrator = some inst ∧
      (n.onMessage source published now g).node = (n.coordinate inst p msg).1 := by
  unfold onMessage
  by_cases hs : source = some n.id
  · simp [hs]
  · rw [if_neg hs]
    cases g with
    | assignment msg => exact .inr (.inl ⟨msg, rfl, hs, rfl⟩)
    | coordination msg =>
      cases source with
      | none => exact .inl rfl
      | some p =>
        cases hinst : n.mpcOrchestrator with
        | none => simp [onCoordination, hinst]
        | some inst =>
          refine .inr (.inr ⟨p, msg, inst, rfl, rfl, fun he => hs (congrArg some he), rfl, ?_⟩)
          simp [onCoordination, hinst]
    | protocol φ msg => exact .inl rfl
    | other topic data => exact .inl rfl

/-- A node answers a message with an assignment message, if at all. -/
theorem onMessage_published {n : Node X} {source : Option X.PeerId} {published : Bool}
    {now : UInt64} {g g' : Gossip X}
    (h : (n.onMessage source published now g).published = some g') :
    ∃ msg, g' = .assignment msg := by
  unfold onMessage at h
  split at h
  · cases h
  · cases g with
    | assignment msg =>
      obtain ⟨answer, -, rfl⟩ := Option.map_eq_some_iff.1 h
      exact ⟨answer, rfl⟩
    | _ => cases h

/-- A step keeps the identity of the node, and what it does to its peers and to its orchestrator is
one of these things. -/
theorem step_slot {l : NodeLabel X} (h : n.step l = some n') :
    n'.id = n.id ∧ n'.peerList = n.peersAfter l ∧ SlotStep n l n'.mpcOrchestrator := by
  cases l with
  | receive source published now g =>
    obtain rfl := Option.some.inj h
    rcases n.onMessage_cases source published now g with he | ⟨msg, rfl, -, he⟩ |
        ⟨p, msg, inst, rfl, rfl, hp, hinst, he⟩ <;> rw [he]
    · exact ⟨rfl, rfl, .keep⟩
    · obtain ⟨hid, hpeers⟩ := n.handleAssignmentMessage_keeps published now msg
      refine ⟨hid, hpeers, ?_⟩
      rcases n.handleAssignmentMessage_slot published now msg with ⟨-, he⟩ | ⟨-, as, he⟩ <;> rw [he]
      · exact .keep
      · exact .install as
    · exact ⟨rfl, rfl, .coordinate inst p msg hinst (if_neg hp)⟩
  | act a =>
    simp only [step, Option.map_eq_some_iff] at h
    obtain ⟨⟨m, cs⟩, ha, rfl⟩ := h
    cases a with
    | identify peer =>
      cases ha
      have hkeeps : (n.onIdentify peer).id = n.id ∧
          (n.onIdentify peer).mpcOrchestrator = n.mpcOrchestrator := by
        unfold onIdentify
        split_ifs <;> exact ⟨rfl, rfl⟩
      refine ⟨hkeeps.1, rfl, ?_⟩
      rw [hkeeps.2]
      exact .keep
    | connectionClosed | broadcast | assignPeerIndices =>
      cases ha
      exact ⟨rfl, rfl, .keep⟩
    | initiateAuxGen timestamp =>
      cases ha
      exact slotStep_of_handled (n.initiateAuxGen_handled timestamp) rfl
    | initiateKeygen threshold timestamp =>
      cases ha
      exact slotStep_of_handled (n.initiateKeygen_handled threshold timestamp) rfl
    | initiateSigning message signers timestamp =>
      cases ha
      exact slotStep_of_handled (n.initiateSigning_handled message signers timestamp) rfl
    | finish i r =>
      simp only [act, Option.map_eq_some_iff] at ha
      obtain ⟨m', hm', he⟩ := ha
      cases he
      obtain ⟨inst, c, hinst, hc, rfl⟩ := taskStep_eq_some.1 hm'
      exact ⟨rfl, rfl, .finish inst i r c hinst hc⟩
    | advance i =>
      simp only [act, Option.map_eq_some_iff] at ha
      obtain ⟨m', hm', he⟩ := ha
      cases he
      obtain ⟨inst, c, hinst, hc, rfl⟩ := taskStep_eq_some.1 hm'
      exact ⟨rfl, rfl, .advance inst i c hinst hc⟩
    | emit φ out =>
      simp only [act, Option.ite_none_right_eq_some, Option.some.injEq, Prod.mk.injEq] at ha
      obtain ⟨-, rfl, -⟩ := ha
      exact ⟨rfl, rfl, .keep⟩

end Node

/-! ### The peers of a node -/

namespace Node

/-- A node is not among its own peers and lists none of them twice. -/
def PeersDistinct (n : Node X) : Prop := (n.id :: n.peerList).Nodup

theorem PeersDistinct.onIdentify {n : Node X} (hn : n.PeersDistinct) (peer : X.PeerId) :
    (n.onIdentify peer).PeersDistinct := by
  unfold Node.onIdentify
  split_ifs with hid hmem
  · exact hn
  · exact hn
  · obtain ⟨hnot, hnodup⟩ := List.nodup_cons.1 hn
    apply List.nodup_cons.2
    constructor
    · show n.id ∉ n.peerList ++ [peer]
      simp [hnot, Ne.symm hid]
    · show (n.peerList ++ [peer]).Nodup
      apply List.nodup_append.2
      refine ⟨hnodup, by simp, ?_⟩
      rintro p hp _ hq rfl
      rw [List.mem_singleton.1 hq] at hp
      exact hmem hp

theorem PeersDistinct.onConnectionClosed {n : Node X} (hn : n.PeersDistinct) (peer : X.PeerId) :
    (n.onConnectionClosed peer).PeersDistinct :=
  List.Sublist.nodup (List.Sublist.cons_cons _ List.filter_sublist) hn

theorem PeersDistinct.step {n n' : Node X} (hn : n.PeersDistinct) {l : NodeLabel X}
    (h : n.step l = some n') : n'.PeersDistinct := by
  obtain ⟨hid, hpeers, -⟩ := step_slot h
  have hsame : n'.peerList = n.peerList → n'.PeersDistinct := by
    intro he
    unfold PeersDistinct
    rw [hid, he]
    exact hn
  cases l with
  | receive => exact hsame hpeers
  | act a =>
    cases a with
    | identify peer =>
      cases h
      exact hn.onIdentify peer
    | connectionClosed peer =>
      cases h
      exact hn.onConnectionClosed peer
    | _ => exact hsame hpeers

end Node

/-- The machine of one node in an arbitrary environment, from its start on. -/
def nodeMachine (X : Platform) : Machine (Node X) (NodeLabel X) where
  init n := ∃ id, n = .new id
  step := Node.step

theorem reachable_peersDistinct {n : Node X} (h : (nodeMachine X).Reachable n) :
    n.PeersDistinct := by
  apply h.induct
  · rintro _ ⟨id, rfl⟩
    simp [Node.PeersDistinct, Node.new]
  · intro n l n' hn hl
    exact hn.step hl

end P2pMpc
