import P2pMpc.Network
import P2pMpc.RpcGuards

/-!
# Whether the nodes stay in step

`initiate_keygen` and `initiate_signing` look at the phase of their own node only, and nothing
waits for the other nodes: the handler of `AuxCompleted` that would collect who has completed is a
TODO, and no node sends that message. Whether another node accepts the Initiate message is decided
by the phase that node has reached when the message arrives; `accepts_iff_ready` says what it has
to be, for every message of a node that had completed the phase before, and
`phases_in_step_iff` says it of whole runs.
-/

namespace P2pMpc

open StateMachine MPCOrchestrator

variable {X : Platform} {n : ℕ}

/-- The action of an initiating call. -/
def InitiateCall.action : InitiateCall → Action X
  | .auxGen timestamp => .initiateAuxGen timestamp
  | .keygen threshold timestamp => .initiateKeygen threshold timestamp
  | .signing message signers timestamp => .initiateSigning message signers timestamp

theorem ready_of_keygen_ok {o : MPCOrchestrator X} {chan : ChannelId} {sender : X.PeerId}
    {eid : List UInt8} {t total : UInt16} {timestamp : SystemTime}
    (h : (o.handleCoordinationMessage chan sender (.initiateKeygen eid t total timestamp)).result =
      .ok ()) : readyForKeygen o.state = true := by
  unfold handleCoordinationMessage at h
  rcases handleInitiateKeygen_cases o chan sender eid t total timestamp with
    ⟨e, -, he⟩ | ⟨_, _, hc, -⟩
  · cases (congrArg Reply.result he).symm.trans h
  · exact hc.2.1

theorem ready_of_signing_ok {o : MPCOrchestrator X} {chan : ChannelId} {sender : X.PeerId}
    {eid message : List UInt8} {signers : List PartyIndex} {timestamp : SystemTime}
    (h : (o.handleCoordinationMessage chan sender
      (.initiateSigning eid message signers timestamp)).result = .ok ()) :
    readyForSigning o.state = true := by
  unfold handleCoordinationMessage at h
  rcases handleInitiateSigning_cases o chan sender eid message signers timestamp with
    ⟨e, -, he⟩ | ⟨_, _, hc, -⟩
  · cases (congrArg Reply.result he).symm.trans h
  · exact hc.2.1

namespace Node

/-- The node has completed the phase before the one the call starts. -/
def HasCompleted (m : Node X) : InitiateCall → Prop
  | .auxGen _ => False
  | .keygen _ _ => ∃ inst, m.mpcOrchestrator = some inst ∧ inst.orch.state = .auxCompleted
  | .signing _ _ _ =>
      ∃ inst pk, m.mpcOrchestrator = some inst ∧ inst.orch.state = .keygenCompleted pk

/-- The node would handle the message of `sender` without an error. -/
def Accepts (m : Node X) (sender : X.PeerId) (msg : CoordinationMessage X) : Prop :=
  ∃ inst, m.mpcOrchestrator = some inst ∧
    (inst.orch.handleCoordinationMessage m.nextChannel sender msg).result = .ok ()

/-- The phase of the node lets the message in: for a keygen it has completed its aux generation;
for a signing it has completed its keygen, or is still idle, and has its key share if it is among
the signers. -/
def ReadyFor (m : Node X) : CoordinationMessage X → Prop
  | .initiateKeygen _ _ _ _ =>
      ∃ inst, m.mpcOrchestrator = some inst ∧ inst.orch.state = .auxCompleted
  | .initiateSigning _ _ signers _ =>
      ∃ inst i, m.mpcOrchestrator = some inst ∧ readyForSigning inst.orch.state = true ∧
        inst.orch.localPartyIndex = some i ∧ (i ∈ signers → inst.orch.keyShare ≠ none)
  | _ => True

/-- A keygen that passed the checks of a call is accepted exactly by a node that is ready. -/
theorem accepts_keygen_iff {m : Node X} (hm : m.WellFormed) {timestamp : SystemTime} {ts : UInt64}
    (hts : timestamp.secsSinceEpoch = some ts) {t total : UInt16} (ht : t ≠ 0) (hle : t ≤ total)
    (sender : X.PeerId) (eid : List UInt8) :
    m.Accepts sender (.initiateKeygen eid t total timestamp) ↔
      m.ReadyFor (.initiateKeygen eid t total timestamp) := by
  constructor
  · rintro ⟨inst, hinst, hok⟩
    have hr := ready_of_keygen_ok hok
    have hne := ((hm.slot inst hinst).keygen_ok_iff hts hr ht hle _ _ _).1 hok
    refine ⟨inst, hinst, ?_⟩
    generalize inst.orch.state = st at hr hne
    cases st <;> simp only [readyForKeygen, Bool.false_eq_true] at hr
    · exact absurd rfl hne
    · rfl
  · rintro ⟨inst, hinst, hst⟩
    have hr : readyForKeygen inst.orch.state = true := by rw [hst]; rfl
    refine ⟨inst, hinst, ?_⟩
    apply ((hm.slot inst hinst).keygen_ok_iff hts hr ht hle _ _ _).2
    rw [hst]
    rintro ⟨⟩

/-- A signing with a valid timestamp is accepted exactly by a node that is ready. -/
theorem accepts_signing_iff {m : Node X} (hm : m.WellFormed) {timestamp : SystemTime} {ts : UInt64}
    (hts : timestamp.secsSinceEpoch = some ts) (sender : X.PeerId) (eid message : List UInt8)
    (signers : List PartyIndex) :
    m.Accepts sender (.initiateSigning eid message signers timestamp) ↔
      m.ReadyFor (.initiateSigning eid message signers timestamp) := by
  constructor
  · rintro ⟨inst, hinst, hok⟩
    have hin := hm.slot inst hinst
    obtain ⟨i, hi⟩ := hin.localPartyIndex
    have hr := ready_of_signing_ok hok
    have hno := (hin.signing_ok_iff hts hr hi _ _ _ _ _).1 hok
    exact ⟨inst, i, hinst, hr, hi, fun his hk => hno ⟨his, hk⟩⟩
  · rintro ⟨inst, i, hinst, hr, hi, hk⟩
    refine ⟨inst, hinst, ?_⟩
    apply ((hm.slot inst hinst).signing_ok_iff hts hr hi _ _ _ _ _).2
    rintro ⟨his, hnone⟩
    exact hk his hnone

/-- A message that a call has sent for keygen or signing is accepted exactly by a node that is
ready. -/
theorem accepts_iff_ready {m m' : Node X} (hm' : m'.WellFormed) {call : InitiateCall}
    {msg : CoordinationMessage X} (hb : (m.initiateCall call).broadcast = some msg)
    (hcall : m.HasCompleted call) (sender : X.PeerId) :
    m'.Accepts sender msg ↔ m'.ReadyFor msg := by
  cases call with
  | auxGen => exact hcall.elim
  | keygen t timestamp =>
    obtain ⟨_, _, ts, -, hts, -, ht, hle, rfl⟩ := initiateKeygen_broadcast hb
    exact accepts_keygen_iff hm' hts ht hle sender _
  | signing message signers timestamp =>
    obtain ⟨_, _, ts, -, hts, -, rfl⟩ := initiateSigning_broadcast hb
    exact accepts_signing_iff hm' hts sender _ _ signers

end Node

/-! ### Runs -/

/-- The peer is a participant of the installed orchestrator. -/
def Node.HasAssigned (m : Node X) (q : X.PeerId) : Prop :=
  ∃ inst, m.mpcOrchestrator = some inst ∧ q ∈ inst.orch.participants

/-- In the run of `ls` from `s`, some node `p` that had completed the phase before, in a session
with the participant `q`, has sent the message. -/
def Net.SentInTurn (s : Net X n) (ls : List (NetLabel X n)) (p q : X.PeerId)
    (msg : CoordinationMessage X) : Prop :=
  ∃ pre k call post u, ls = pre ++ .act k call.action :: post ∧
    (netMachine X n).run s pre = some u ∧ u.id k = p ∧ (u.hosts k).node.HasAssigned q ∧
    (u.hosts k).node.HasCompleted call ∧
    ((u.hosts k).node.initiateCall call).broadcast = some msg

/-- Whenever the run delivers a message that was sent in turn to a participant of the sender's
session, `P` holds of the participant's node and the message, with its source. -/
def Net.AtDeliveries (P : Node X → X.PeerId → CoordinationMessage X → Prop) (s : Net X n)
    (ls : List (NetLabel X n)) : Prop :=
  ∀ pre i published now post u p msg, ls = pre ++ .deliver i published now :: post →
    (netMachine X n).run s pre = some u → u.wire[i]? = some p → p.content = .coordination msg →
      s.SentInTurn pre p.source (u.id p.dest) msg → P (u.hosts p.dest).node p.source msg

/-- In every run from the start, the messages sent in turn are accepted by every assigned node they
are delivered to exactly if each is delivered to assigned nodes that are ready for it only. -/
theorem phases_in_step_iff (hX : X.ParsesPeers) {s : Net X n} (hs : (netMachine X n).init s)
    (ls : List (NetLabel X n)) :
    s.AtDeliveries Node.Accepts ls ↔ s.AtDeliveries (fun m _ msg => m.ReadyFor msg) ls := by
  have hiff : ∀ pre u, (netMachine X n).run s pre = some u → ∀ d p q msg,
      s.SentInTurn pre p q msg →
        ((u.hosts d).node.Accepts p msg ↔ (u.hosts d).node.ReadyFor msg) := by
    rintro pre u hu d p q msg ⟨_, k, call, _, v, -, -, -, -, hcall, hb⟩
    have hwell := reachable_wellFormed hX (reachable_node ⟨s, pre, hs, hu⟩ d)
    exact Node.accepts_iff_ready hwell hb hcall p
  constructor
  · intro h pre i published now post u p msg hls hu hp hmsg hsent
    exact (hiff pre u hu _ _ _ _ hsent).1 (h pre i published now post u p msg hls hu hp hmsg hsent)
  · intro h pre i published now post u p msg hls hu hp hmsg hsent
    exact (hiff pre u hu _ _ _ _ hsent).2 (h pre i published now post u p msg hls hu hp hmsg hsent)

namespace Net.AtDeliveries

variable {s : Net X n} {ls : List (NetLabel X n)}
  {P : Node X → X.PeerId → CoordinationMessage X → Prop}

/-- Nothing is sent in turn in a run without a call for keygen or signing. -/
theorem of_no_call (h : ∀ k call, .act k (InitiateCall.action call) ∈ ls →
    ∃ timestamp, call = .auxGen timestamp) : s.AtDeliveries P ls := by
  rintro pre i published now post u p msg rfl - - - hturn
  obtain ⟨pre', k, call, post', v, rfl, -, -, -, hcall, -⟩ := hturn
  obtain ⟨timestamp, rfl⟩ := h k call (by simp)
  exact hcall.elim

/-- One more step of the run: it is no delivery, or `P` holds at it. -/
theorem concat (h : s.AtDeliveries P ls) {l : NetLabel X n}
    (hl : ∀ i published now u p msg, l = .deliver i published now →
      (netMachine X n).run s ls = some u → u.wire[i]? = some p → p.content = .coordination msg →
        P (u.hosts p.dest).node p.source msg) : s.AtDeliveries P (ls ++ [l]) := by
  intro pre i published now post u p msg hls hu hp hmsg hsent
  rcases List.eq_nil_or_concat' post with rfl | ⟨post', l', rfl⟩
  · obtain ⟨rfl, hlast⟩ := List.append_inj' hls rfl
    exact hl i published now u p msg (List.cons.inj hlast).1 hu hp hmsg
  · have hls' : ls = pre ++ .deliver i published now :: post' := by
      rw [← List.cons_append, ← List.append_assoc] at hls
      exact (List.append_inj' hls rfl).1
    exact h pre i published now post' u p msg hls' hu hp hmsg hsent

end Net.AtDeliveries

/-! ### A keygen that comes too early -/

namespace EarlyKeygen

open ThreeNodes

/-- All three nodes accept the assignment of `a` and run the aux generation, which `a` completes. -/
def labels : List (NetLabel .plain 3) :=
  assign ++ [.deliver 0 true 5, .deliver 1 true 5, .act a (.initiateAuxGen ⟨0⟩), .process a true,
    .deliver 2 true 5, .deliver 2 true 5, .act a (.finish 0 (.aux (.ok (5 : ℕ)))),
    .act a (.advance 0), .act a (.advance 0)]

/-- `b` completes it as well. -/
def finishOther : List (NetLabel .plain 3) :=
  [.act b (.finish 0 (.aux (.ok (6 : ℕ)))), .act b (.advance 0), .act b (.advance 0)]

/-- The keygen of `a`. -/
def keygen : List (NetLabel .plain 3) :=
  [.act a (InitiateCall.keygen 2 ⟨0⟩).action, .process a true]

/-- What `a` sends. -/
def message : CoordinationMessage .plain :=
  .initiateKeygen (MPCOrchestrator.createExecutionId "keygen" ⟨0⟩) 2 3 ⟨0⟩

/-- The message of `a` is on its way to `b`, whose aux generation is still in progress. -/
theorem early : start.SentInTurn (labels ++ keygen) "a" "b" message ∧
    ∃ u, (netMachine .plain 3).run start (labels ++ keygen) = some u ∧
      u.wire[2]? = some ⟨"a", b, .coordination message⟩ ∧ u.id b = "b" ∧
      ∃ q e inst, (u.hosts b).node.mpcOrchestrator = some inst ∧
        inst.orch.state = .auxGeneration q e := by
  constructor
  · refine ⟨labels, a, .keygen 2 ⟨0⟩, [.process a true], _, rfl, rfl, rfl, ⟨_, rfl, ?_⟩,
      ⟨_, rfl, rfl⟩, ?_⟩
    · show "b" ∈ ["a", "b", "c"]
      decide
    · rfl
  · exact ⟨_, rfl, rfl, rfl, _, _, _, rfl, rfl⟩

/-- The message of `a` is on its way to `b`, which has completed its aux generation. -/
theorem inTime : start.SentInTurn (labels ++ finishOther ++ keygen) "a" "b" message ∧
    ∃ u, (netMachine .plain 3).run start (labels ++ finishOther ++ keygen) = some u ∧
      u.wire[2]? = some ⟨"a", b, .coordination message⟩ ∧ u.id b = "b" ∧
      ∃ inst, (u.hosts b).node.mpcOrchestrator = some inst ∧ inst.orch.state = .auxCompleted := by
  constructor
  · refine ⟨labels ++ finishOther, a, .keygen 2 ⟨0⟩, [.process a true], _, rfl, rfl, rfl,
      ⟨_, rfl, ?_⟩, ⟨_, rfl, rfl⟩, ?_⟩
    · show "b" ∈ ["a", "b", "c"]
      decide
    · rfl
  · exact ⟨_, rfl, rfl, rfl, _, rfl, rfl⟩

/-- No call for keygen or signing is made before. -/
theorem no_call {k : Fin 3} {call : InitiateCall}
    (h : .act k call.action ∈ labels ++ finishOther) : ∃ timestamp, call = .auxGen timestamp := by
  cases call with
  | auxGen timestamp => exact ⟨timestamp, rfl⟩
  | keygen | signing => simp [labels, finishOther, assign, InitiateCall.action] at h

end EarlyKeygen

open ThreeNodes EarlyKeygen

/-- The keygen of `a` is rejected by `b`. -/
theorem early_keygen_rejected : (netMachine .plain 3).init start ∧
    ¬ start.AtDeliveries Node.Accepts (labels ++ keygen ++ [.deliver 2 true 5]) := by
  refine ⟨⟨ids, ids_injective, rfl⟩, fun h => ?_⟩
  obtain ⟨hsent, u, hu, hp, hb, q, e, inst, hinst, hst⟩ := early
  rw [← hb] at hsent
  obtain ⟨inst', hinst', hok⟩ := h _ 2 true 5 [] u _ _ rfl hu hp rfl hsent
  obtain rfl := Option.some.inj (hinst.symm.trans hinst')
  have hready := ready_of_keygen_ok hok
  rw [hst] at hready
  cases hready

/-- In a run that delivers the keygen of `a` to `b` when `b` is ready, it is accepted. -/
theorem keygen_in_step :
    start.AtDeliveries Node.Accepts (labels ++ finishOther ++ keygen ++ [.deliver 2 true 5]) ∧
    start.SentInTurn (labels ++ finishOther ++ keygen) "a" "b" message ∧
    ∃ u, (netMachine .plain 3).run start (labels ++ finishOther ++ keygen) = some u ∧
      u.wire[2]? = some ⟨"a", b, .coordination message⟩ ∧
      (u.hosts b).node.Accepts "a" message := by
  obtain ⟨hsent, u, hu, hp, hb, hready⟩ := inTime
  suffices haccepts : start.AtDeliveries Node.Accepts
      (labels ++ finishOther ++ keygen ++ [.deliver 2 true 5]) by
    refine ⟨haccepts, hsent, u, hu, hp, ?_⟩
    rw [← hb] at hsent
    exact haccepts _ 2 true 5 [] u _ _ rfl hu hp rfl hsent
  refine (phases_in_step_iff Platform.plain_lawful.parsesPeers ⟨ids, ids_injective, rfl⟩ _).2 ?_
  have hbefore : start.AtDeliveries (fun m _ msg => m.ReadyFor msg) (labels ++ finishOther) :=
    .of_no_call fun k call h => no_call h
  have hsend : start.AtDeliveries (fun m _ msg => m.ReadyFor msg)
      (labels ++ finishOther ++ keygen) := by
    have hcall := hbefore.concat (l := .act a (InitiateCall.keygen 2 ⟨0⟩).action)
      (by rintro _ _ _ _ _ _ ⟨⟩)
    have hprocess := hcall.concat (l := .process a true) (by rintro _ _ _ _ _ _ ⟨⟩)
    rwa [List.append_assoc _ [_] [_]] at hprocess
  refine hsend.concat ?_
  rintro _ _ _ v p msg ⟨⟩ hv hpv hmsg
  obtain rfl : u = v := Option.some.inj (hu.symm.trans hv)
  obtain rfl := Option.some.inj (hp.symm.trans hpv)
  cases hmsg
  exact hready

end P2pMpc
