import P2pMpc.Session

/-!
# Protocol messages on the wire

The event loop wraps every outgoing protocol message in an `MpcAuxMessage` and publishes it to the
whole topic of its phase, point-to-point messages included; a receiver drops those addressed to
another party index, looks the declared sender up in its assignment, and forwards the message into
the channel of the phase. The three phases have the same code over different message types, topics
and channels, so it is written once for a `Phase`.

The JSON encoding of the wrapper is not modelled: a published `Gossip` arrives as it was sent.
-/

namespace P2pMpc

variable {X : Platform}

/-- `MpcAuxMessage`, which wraps the messages of all three phases. -/
structure MpcAuxMessage (X : Platform) where
  /-- `from`, declared by the sender. -/
  fromPeer : X.PeerId
  /-- `to`. -/
  toParty : Option PartyIndex
  msgType : String
  payload : List UInt8

/-- The gossipsub topic of a phase. -/
def Phase.topic : Phase → String
  | .aux => "mpc-aux-protocol"
  | .keygen => "mpc-keygen-protocol"
  | .signing => "mpc-signing-protocol"

/-! ### Sending -/

/-- `SendAuxMessage`, `SendKeygenMessage` and `SendSigningMessage`: what the event loop of the node
`id` publishes for an outgoing message, unless the payload does not serialize. -/
def wrapOutgoing (id : X.PeerId) (φ : Phase) (out : Outgoing (X.Msg φ)) :
    Option (MpcAuxMessage X) :=
  match X.serialize φ out.msg with
  | none => none
  | some payload =>
    match out.recipient with
    | .allParties => some ⟨id, none, "broadcast", payload⟩
    | .oneParty i => some ⟨id, some i, "p2p", payload⟩

/-! ### Receiving -/

/-- Why a protocol message is not forwarded to a party. -/
inductive RouteError
  | noOrchestrator
  | notForUs
  | badPayload
  | unknownPeer
  | notInitialized
  | receiverDropped
  deriving DecidableEq, Repr

/-- The party of the task is running the protocol of the phase and receives on the channel. A party
owns its receiver only until its protocol run returns. -/
def Task.receives : Phase → ChannelId → Task X → Bool
  | .aux, chan, .aux p _ _ .running => p.messageRx == chan
  | .keygen, chan, .keygen p _ _ _ .running => p.messageRx == chan
  | .signing, chan, .signing p _ _ _ .running => p.messageRx == chan
  | _, _, _ => false

/-- The receiver of the channel still exists. -/
def Instance.receiverAlive (inst : Instance X) (φ : Phase) (chan : ChannelId) : Bool :=
  inst.tasks.any fun t => t.receives φ chan

/-- The `Incoming` value made from a message of the sender with the index `sender`. -/
def incomingOf {φ : Phase} (sender : PartyIndex) (msgType : String) (msg : X.Msg φ) :
    Incoming (X.Msg φ) where
  id := 0
  sender := sender
  msgType := if msgType = "broadcast" then .broadcast else .p2p
  msg := msg

/-- The message is point-to-point and its target is not the party index of the node. -/
def MpcAuxMessage.notFor (m : MpcAuxMessage X) (ours : Option PartyIndex) : Bool :=
  match m.toParty with
  | none => false
  | some target => ours != some target

/-- The handling of a protocol message of the phase at the node `id`: the channel it is sent to
and the value sent. -/
def forwardIncoming (id : X.PeerId) (slot : Option (Instance X)) (φ : Phase)
    (m : MpcAuxMessage X) : Except RouteError (ChannelId × Incoming (X.Msg φ)) :=
  match slot with
  | none => .error .noOrchestrator
  | some inst =>
    if m.notFor (inst.orch.partyAssignments.lookup id) then .error .notForUs
    else
      match X.deserialize φ m.payload with
      | none => .error .badPayload
      | some msg =>
        match inst.orch.partyAssignments.lookup m.fromPeer with
        | none => .error .unknownPeer
        | some sender =>
          match inst.orch.incomingTx φ with
          | none => .error .notInitialized
          | some chan =>
            if inst.receiverAlive φ chan then .ok (chan, incomingOf sender m.msgType msg)
            else .error .receiverDropped

/-- A message is forwarded exactly if an orchestrator is installed, the message is not for another
party, its payload and its declared sender are known, and the channel of the phase is open. -/
theorem forwardIncoming_eq_ok {id : X.PeerId} {slot : Option (Instance X)} {φ : Phase}
    {m : MpcAuxMessage X} {r : ChannelId × Incoming (X.Msg φ)} :
    forwardIncoming id slot φ m = .ok r ↔
      ∃ inst msg sender chan, slot = some inst ∧
        m.notFor (inst.orch.partyAssignments.lookup id) = false ∧
        X.deserialize φ m.payload = some msg ∧
        inst.orch.partyAssignments.lookup m.fromPeer = some sender ∧
        inst.orch.incomingTx φ = some chan ∧ inst.receiverAlive φ chan = true ∧
        r = (chan, incomingOf sender m.msgType msg) := by
  constructor
  · intro h
    unfold forwardIncoming at h
    split at h
    · cases h
    · next inst =>
      split_ifs at h with hfor
      split at h
      · cases h
      · next msg hmsg =>
        split at h
        · cases h
        · next sender hsender =>
          split at h
          · cases h
          · next chan hchan =>
            split_ifs at h with halive
            cases h
            exact ⟨inst, msg, sender, chan, rfl, by simpa using hfor, hmsg, hsender, hchan, halive,
              rfl⟩
  · rintro ⟨inst, msg, sender, chan, rfl, hfor, hmsg, hsender, hchan, halive, rfl⟩
    simp [forwardIncoming, hfor, hmsg, hsender, hchan, halive]

end P2pMpc
