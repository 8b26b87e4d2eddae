import P2pMpc.Delivery

/-!
# What the wrapper of a protocol message says

The sender of a protocol message writes its recipient twice: the index or its absence into `to`, and
`"p2p"` or `"broadcast"` into `msg_type`. A receiver filters by the first and tells the party by the
second whether the message was broadcast, and compares the two nowhere. What a sender has wrapped is
read as it was meant; but a wrapper that contradicts itself is read all the same, and one addressed
to a single party can be handed to it as a broadcast.
-/

namespace P2pMpc

open StateMachine

variable {X : Platform}

namespace MpcAuxMessage

variable {m : MpcAuxMessage X}

/-- The text that goes with the `to` of the message. -/
def typeOfTo (m : MpcAuxMessage X) : String :=
  match m.toParty with
  | none => "broadcast"
  | some _ => "p2p"

/-- The message is one of the two kinds that are sent. -/
def Encoded (m : MpcAuxMessage X) : Prop :=
  (m.toParty = none ∧ m.msgType = "broadcast") ∨ ∃ j, m.toParty = some j ∧ m.msgType = "p2p"

theorem encoded_iff : m.Encoded ↔ m.msgType = m.typeOfTo := by
  unfold Encoded typeOfTo
  cases m.toParty with
  | none => simp
  | some j => simp

theorem notFor_eq_false_iff {ours : Option PartyIndex} :
    m.notFor ours = false ↔ m.toParty = none ∨ m.toParty = ours ∧ ours.isSome = true := by
  unfold notFor
  cases m.toParty with
  | none => simp
  | some target =>
    cases ours with
    | none => simp
    | some i =>
      simp only [bne_eq_false_iff_eq, reduceCtorEq, Option.isSome_some, and_true, false_or]
      exact eq_comm

end MpcAuxMessage

/-- What is sent is of one of the two kinds, and its text says which. -/
theorem wrapOutgoing_fields {p : X.PeerId} {φ : Phase} {out : Outgoing (X.Msg φ)}
    {m : MpcAuxMessage X} (h : wrapOutgoing p φ out = some m) : m.Encoded ∧
      (if m.msgType = "broadcast" then MessageType.broadcast else .p2p) =
        out.recipient.msgType := by
  unfold wrapOutgoing at h
  cases hb : X.serialize φ out.msg with
  | none => simp [hb] at h
  | some payload =>
    simp only [hb] at h
    cases hr : out.recipient with
    | allParties =>
      rw [hr] at h
      cases h
      exact ⟨.inl ⟨rfl, rfl⟩, rfl⟩
    | oneParty i =>
      rw [hr] at h
      cases h
      exact ⟨.inr ⟨i, rfl, rfl⟩, rfl⟩

namespace Node

variable {n : Node X} {source : Option X.PeerId} {published : Bool} {now : UInt64} {φ : Phase}
  {m : MpcAuxMessage X} {f : Forwarded X}

/-- The value that is forwarded when the message arrives. -/
def forwards (n : Node X) (source : Option X.PeerId) (φ : Phase) (m : MpcAuxMessage X) :
    Option (Forwarded X) :=
  if source = some n.id then none else n.onProtocol φ m

theorem onMessage_forwarded :
    (n.onMessage source published now (.protocol φ m)).forwarded = n.forwards source φ m := by
  unfold onMessage forwards
  split_ifs <;> rfl

/-- The message passes every check that is made: it comes from another node, an orchestrator is
installed, `to` is absent or the index of the node, the payload decodes, the declared sender has an
index, and the party of the phase is receiving. -/
def Admits (n : Node X) (source : Option X.PeerId) (φ : Phase) (m : MpcAuxMessage X) : Prop :=
  source ≠ some n.id ∧ ∃ inst, n.mpcOrchestrator = some inst ∧
    (m.toParty = none ∨ m.toParty = inst.orch.partyAssignments.lookup n.id ∧
      n.id ∈ inst.orch.partyAssignments) ∧
    (X.deserialize φ m.payload).isSome = true ∧ m.fromPeer ∈ inst.orch.partyAssignments ∧
    ∃ chan, inst.orch.incomingTx φ = some chan ∧ inst.receiverAlive φ chan = true

theorem forwards_eq_some : n.forwards source φ m = some f ↔
    source ≠ some n.id ∧ ∃ chan incoming,
      forwardIncoming n.id n.mpcOrchestrator φ m = .ok (chan, incoming) ∧
        f = ⟨φ, chan, incoming⟩ := by
  unfold forwards onProtocol
  rw [Option.ite_none_left_eq_some]
  refine and_congr_right fun _ => ?_
  cases forwardIncoming n.id n.mpcOrchestrator φ m with
  | error e => simp
  | ok r => simp [eq_comm, Prod.ext_iff]

/-- No check looks at the type of the message. -/
theorem exists_forwards_iff : (∃ f, n.forwards source φ m = some f) ↔ n.Admits source φ m := by
  simp only [forwards_eq_some, forwardIncoming_eq_ok, Admits, MpcAuxMessage.notFor_eq_false_iff,
    AList.lookup_isSome]
  constructor
  · rintro ⟨_, hsource, _, _, ⟨inst, msg, sender, chan, hinst, hto, hmsg, hsender, hchan, halive,
      -⟩, -⟩
    exact ⟨hsource, inst, hinst, hto, by simp [hmsg], AList.lookup_isSome.1 (by simp [hsender]),
      chan, hchan, halive⟩
  · rintro ⟨hsource, inst, hinst, hto, hmsg, hsender, chan, hchan, halive⟩
    obtain ⟨msg, hmsg⟩ := Option.isSome_iff_exists.1 hmsg
    obtain ⟨sender, hsender⟩ := Option.isSome_iff_exists.1 (AList.lookup_isSome.2 hsender)
    exact ⟨_, hsource, _, _, ⟨inst, msg, sender, chan, hinst, hto, hmsg, hsender, hchan, halive,
      rfl⟩, rfl⟩

/-- The type that the party is told is read off the text alone. -/
theorem forwards_msgType (h : n.forwards source φ m = some f) :
    f.incoming.msgType = if m.msgType = "broadcast" then .broadcast else .p2p := by
  obtain ⟨-, chan, incoming, hok, rfl⟩ := forwards_eq_some.1 h
  obtain ⟨inst, msg, sender, chan', -, -, -, -, -, -, he⟩ := forwardIncoming_eq_ok.1 hok
  cases he
  rfl

/-- The message is forwarded only if it is of one of the two kinds that are sent; then what is
forwarded as a broadcast is addressed to all parties, what is forwarded as point-to-point to this
party alone, and if the message wraps an outgoing one the party is told how this was sent. -/
def DecodesFaithfully (n : Node X) (source : Option X.PeerId) (φ : Phase) (m : MpcAuxMessage X) :
    Prop :=
  ∀ f, n.forwards source φ m = some f →
    m.Encoded ∧
    (f.incoming.msgType = .broadcast → m.toParty = none) ∧
    (f.incoming.msgType = .p2p → ∃ inst i, n.mpcOrchestrator = some inst ∧
      inst.orch.partyAssignments.lookup n.id = some i ∧ m.toParty = some i) ∧
    ∀ p out, wrapOutgoing p φ out = some m → f.incoming.msgType = out.recipient.msgType

/-- What passes the checks and is of one of the two kinds is read as it was meant. -/
theorem DecodesFaithfully.of_encoded (h : m.Encoded) : n.DecodesFaithfully source φ m := by
  intro f hf
  have htype := forwards_msgType hf
  obtain ⟨-, inst, hinst, hto, -⟩ := exists_forwards_iff.1 ⟨f, hf⟩
  refine ⟨h, ?_, ?_, fun p out hout => htype.trans (wrapOutgoing_fields hout).2⟩
  · intro hbroadcast
    rcases h with ⟨hnone, -⟩ | ⟨j, -, hp2p⟩
    · exact hnone
    · rw [htype, hp2p] at hbroadcast
      cases hbroadcast
  · intro hp2p
    rcases h with ⟨-, hbroadcast⟩ | ⟨j, hj, -⟩
    · rw [htype, hbroadcast] at hp2p
      cases hp2p
    · rcases hto with hnone | ⟨hours, -⟩
      · rw [hj] at hnone
        cases hnone
      · exact ⟨inst, j, hinst, hours.symm.trans hj, hj⟩

end Node

open Node

/-- For every node and every wrapper that arrives on the topic of a phase: what is forwarded is what
a sender has wrapped, for the recipient it was meant for, exactly if the wrapper fails one of the
checks that are made or its `msg_type` is the one that goes with its `to`. -/
theorem decodes_faithfully_iff (n : Node X) (source : Option X.PeerId) (φ : Phase)
    (m : MpcAuxMessage X) :
    n.DecodesFaithfully source φ m ↔ ¬ n.Admits source φ m ∨ m.msgType = m.typeOfTo := by
  rw [← MpcAuxMessage.encoded_iff]
  constructor
  · intro h
    by_cases hadmits : n.Admits source φ m
    · obtain ⟨f, hf⟩ := exists_forwards_iff.2 hadmits
      exact .inr (h f hf).1
    · exact .inl hadmits
  · rintro (hadmits | h)
    · exact fun f hf => absurd (exists_forwards_iff.1 ⟨f, hf⟩) hadmits
    · exact .of_encoded h

namespace SelectiveRun

/-- The node is assigned its index by `a`, which then initiates an aux generation. -/
def labels : List (NodeLabel .plain) :=
  [.receive (some "a") true 0
    (.assignment (.request "a" (.ofEntries [("a", 0), ("b", 1), ("c", 2)]) "a-5")),
   .receive (some "a") true 0 (.coordination (.initiateAux [] []
    (.ofEntries [("a", 0), ("b", 1), ("c", 2)]) ⟨0⟩))]

/-- A broadcast for `b` alone. -/
def message : MpcAuxMessage .plain := ⟨"a", some 1, "broadcast", [7]⟩

end SelectiveRun

/-- Of two nodes that run one aux generation, `b` is handed the message as a broadcast and `c` is
not handed it at all. -/
theorem selective_broadcast : ∃ (b c : Node .plain) (f : Forwarded .plain),
    (nodeMachine .plain).run (.new "b") SelectiveRun.labels = some b ∧
    (nodeMachine .plain).run (.new "c") SelectiveRun.labels = some c ∧
    b.forwards (some "a") .aux SelectiveRun.message = some f ∧
    f.incoming.msgType = .broadcast ∧ SelectiveRun.message.toParty = some 1 ∧
    c.forwards (some "a") .aux SelectiveRun.message = none ∧
    ¬ b.DecodesFaithfully (some "a") .aux SelectiveRun.message := by
  refine ⟨_, _, _, rfl, rfl, rfl, rfl, rfl, rfl, fun h => ?_⟩
  have hto := (h _ rfl).2.1 rfl
  cases hto

end P2pMpc
