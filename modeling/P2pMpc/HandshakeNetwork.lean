import P2pMpc.Delivery
import P2pMpc.HandshakeInvariant

/-!
# The handshake in a network

A network in which one coordinator assigns indices once and is the only one to initiate phases.
The messages between the nodes are delivered once each, in any order, or never; and the hash maps
of the sessions and of the Requests may be met in any order at any time. Every step of such a
network is a step of its exchange, `Net.step_exchange`, and the assignment opens a round.
-/

namespace P2pMpc

open StateMachine MPCOrchestrator Lists

variable {X : Platform} {n : ℕ}

/-! ### The exchange of a network -/

def Gossip.assignmentMessage : Gossip X → Option AssignmentMessage
  | .assignment msg => some msg
  | _ => none

def NetworkCommand.assignmentMessage : NetworkCommand X → Option AssignmentMessage
  | .broadcast g => g.assignmentMessage
  | .send _ _ => none

theorem NetworkCommand.assignmentMessage_eq_some {c : NetworkCommand X} {msg : AssignmentMessage} :
    c.assignmentMessage = some msg ↔ c = .broadcast (.assignment msg) := by
  constructor
  · intro h
    cases c with
    | send => cases h
    | broadcast g =>
      cases g with
      | assignment m =>
        cases h
        rfl
      | _ => cases h
  · rintro rfl
    rfl

/-- The assignment message of a packet, with its destination. -/
def Packet.assignmentMessage (p : Packet X n) : Option (Fin n × AssignmentMessage) :=
  p.content.assignmentMessage.map fun msg => (p.dest, msg)

theorem NetworkCommand.assignmentMessage_gossip (id : X.PeerId) (c : NetworkCommand X) :
    (c.gossip id).bind Gossip.assignmentMessage = c.assignmentMessage := by
  cases c with
  | broadcast g => rfl
  | send φ out =>
    show ((wrapOutgoing id φ out).map (Gossip.protocol φ)).bind Gossip.assignmentMessage = none
    cases wrapOutgoing id φ out <;> rfl

namespace Net

def exchange (s : Net X n) : Exchange X n where
  nodes k := (s.hosts k).node
  queue k := (s.hosts k).queue.filterMap NetworkCommand.assignmentMessage
  wire := s.wire.filterMap Packet.assignmentMessage

theorem exchange_setHost (s : Net X n) (k : Fin n) (h : Host X) :
    (s.setHost k h).exchange =
      { s.exchange with
        nodes := Function.update s.exchange.nodes k h.node
        queue := Function.update s.exchange.queue k
          (h.queue.filterMap NetworkCommand.assignmentMessage) } := by
  unfold exchange
  congr 1 <;> funext i <;> by_cases hi : i = k
  · subst hi
    simp
  · simp [hi]
  · subst hi
    simp
  · simp [hi]

theorem exchange_publish (s : Net X n) (k : Fin n) (g : Option (Gossip X)) :
    (s.publish k g).exchange =
      { s.exchange with
        wire := s.exchange.wire ++
          (g.bind Gossip.assignmentMessage).toList.flatMap (copies k) } := by
  have hpackets : ∀ g, (s.packets k g).filterMap Packet.assignmentMessage =
      (g.assignmentMessage).toList.flatMap (copies k) := by
    intro g
    unfold packets
    rw [List.filterMap_map]
    cases hg : g.assignmentMessage with
    | none =>
      apply List.filterMap_eq_nil_iff.2
      intro d _
      simp [Packet.assignmentMessage, hg]
    | some msg =>
      rw [Option.toList_some, List.flatMap_singleton, copies, ← List.filterMap_eq_map]
      congr 1
      funext d
      simp [Packet.assignmentMessage, hg]
  unfold publish exchange
  congr 1
  rw [List.filterMap_append]
  cases g with
  | none => rfl
  | some g =>
    rw [Option.toList_some, List.flatMap_singleton, hpackets]
    rfl

/-- A delivery takes the message off the wire and leaves what the handler has made of the node. -/
theorem exchange_deliver (s : Net X n) (i : ℕ) (p : Packet X n) (published : Bool) (now : UInt64) :
    (s.deliver i p published now).exchange = s.exchange.setNode p.dest
      ((s.hosts p.dest).effect p.source published now p.content).node
      ((s.wire.eraseIdx i).filterMap Packet.assignmentMessage ++
        (((s.hosts p.dest).effect p.source published now p.content).published.bind
          Gossip.assignmentMessage).toList.flatMap (copies p.dest)) := by
  unfold deliver
  rw [exchange_publish, exchange_setHost]
  have hqueue : Function.update s.exchange.queue p.dest
      ((s.hosts p.dest).queue.filterMap NetworkCommand.assignmentMessage) = s.exchange.queue :=
    Function.update_eq_self _ _
  show Exchange.mk _ (Function.update s.exchange.queue p.dest
    ((s.hosts p.dest).queue.filterMap NetworkCommand.assignmentMessage)) _ = _
  rw [hqueue]
  rfl

end Net

/-! ### Runs of the handshake -/

/-- The steps of the network, and the choice of another order for the assignments of a session or
of a Request in flight. -/
inductive HandshakeLabel (X : Platform) (n : ℕ)
  | net (l : NetLabel X n)
  | rehashSession (k : Fin n) (sessionId : String) (assignments : HashMap String ℕ)
  | rehashMessage (i : ℕ) (assignments : HashMap String ℕ)

namespace Net

/-- The assignments of a stored session are met in the order of `assignments`. -/
def rehashSession (s : Net X n) (k : Fin n) (sessionId : String)
    (assignments : HashMap String ℕ) : Option (Net X n) :=
  match (s.hosts k).node.sessions.lookup sessionId with
  | none => none
  | some session =>
    if assignments.entries.Perm session.assignments.entries then
      let session := { session with assignments := assignments }
      some (s.setHost k { s.hosts k with node := (s.hosts k).node.record sessionId session })
    else none

/-- The assignments of the Request at the position `i` of the wire are met in the order of
`assignments`. -/
def rehashMessage (s : Net X n) (i : ℕ) (assignments : HashMap String ℕ) : Option (Net X n) :=
  match s.wire[i]? with
  | some ⟨source, dest, .assignment (.request coordinatorId old sessionId)⟩ =>
    if assignments.entries.Perm old.entries then
      let request := AssignmentMessage.request coordinatorId assignments sessionId
      some { s with wire := s.wire.set i ⟨source, dest, .assignment request⟩ }
    else none
  | _ => none

def handshakeStep (s : Net X n) : HandshakeLabel X n → Option (Net X n)
  | .net l => s.step l
  | .rehashSession k sessionId assignments => s.rehashSession k sessionId assignments
  | .rehashMessage i assignments => s.rehashMessage i assignments

end Net

/-- The network in which a hash map is met in any order. -/
def handshakeMachine (X : Platform) (n : ℕ) : Machine (Net X n) (HandshakeLabel X n) where
  init := (netMachine X n).init
  step := Net.handshakeStep

def Gossip.isCoordination : Gossip X → Bool
  | .coordination _ => true
  | _ => false

/-- The action is not an assignment, puts together no assignment or coordination message by hand,
and initiates a phase only if it may. -/
def Action.Abides (mayInitiate : Prop) : Action X → Prop
  | .assignPeerIndices _ => False
  | .broadcast g => g.assignmentMessage = none ∧ g.isCoordination = false
  | .initiateAuxGen _ => mayInitiate
  | .initiateKeygen _ _ => mayInitiate
  | .initiateSigning _ _ _ => mayInitiate
  | _ => True

/-- A step before or after the assignment of the coordinator `c`, who alone initiates phases. -/
def HandshakeLabel.Abides (c : Fin n) : HandshakeLabel X n → Prop
  | .net (.act k a) => a.Abides (k = c)
  | _ => True

theorem Net.rehashSession_eq_some {s t : Net X n} {k : Fin n} {sid : String}
    {A : HashMap String ℕ} (h : s.rehashSession k sid A = some t) :
    ∃ session, (s.hosts k).node.sessions.lookup sid = some session ∧
      A.entries.Perm session.assignments.entries ∧
      t = s.setHost k { s.hosts k with
        node := (s.hosts k).node.record sid { session with assignments := A } } := by
  unfold rehashSession at h
  cases hs : (s.hosts k).node.sessions.lookup sid with
  | none => simp [hs] at h
  | some session =>
    simp only [hs] at h
    split_ifs at h with hperm
    cases h
    exact ⟨session, rfl, hperm, rfl⟩

theorem Net.rehashMessage_eq_some {s t : Net X n} {i : ℕ} {A : HashMap String ℕ}
    (h : s.rehashMessage i A = some t) :
    ∃ source dest coordinatorId old sid,
      s.wire[i]? = some ⟨source, dest, .assignment (.request coordinatorId old sid)⟩ ∧
      A.entries.Perm old.entries ∧
      t = { s with
        wire := s.wire.set i ⟨source, dest, .assignment (.request coordinatorId A sid)⟩ } := by
  unfold rehashMessage at h
  split at h
  · next source dest coordinatorId old sid hp =>
    split_ifs at h with hperm
    cases h
    exact ⟨source, dest, coordinatorId, old, sid, hp, hperm, rfl⟩
  · cases h

/-! ### Steps of the network are steps of the exchange -/

/-- The commands of an action that abides hold no assignment message. -/
theorem Node.act_assignmentMessage {m : Node X} {a : Action X}
    {r : Node X × List (NetworkCommand X)} (h : m.act a = some r) {p : Prop} (ha : a.Abides p) :
    r.2.filterMap NetworkCommand.assignmentMessage = [] := by
  rcases act_sends h with ⟨φ, out, -, -, rfl⟩ | ⟨g, rfl, rfl⟩ | ⟨now, rfl, -⟩ | ⟨p, msg, -, he⟩ |
      ⟨-, he⟩
  · rfl
  · have hnone : (NetworkCommand.broadcast g).assignmentMessage = none := ha.1
    simp [hnone]
  · exact ha.elim
  · rw [he]
    rfl
  · rw [he]
    rfl

/-- An action that abides works. -/
theorem Node.act_worksTo {m m' : Node X} {a : Action X} (hl : m.step (.act a) = some m') {p : Prop}
    (ha : a.Abides p) : m.WorksTo (.act a) m' := by
  rcases step_cases hl with ⟨now, he, -⟩ | ⟨_, _, _, _, he, -⟩ | hw
  · cases he
    exact ha.elim
  · cases he
  · exact hw

namespace Net

variable {s t : Net X n}

theorem step_exchange_act {k : Fin n} {a : Action X} {p : Prop} (ha : a.Abides p)
    (hs : s.step (.act k a) = some t) : s.exchange.Step t.exchange := by
  obtain ⟨res, hres, rfl⟩ := step_act_eq_some.1 hs
  have hnode : (s.hosts k).node.step (.act a) = some res.1 := by simp [Node.step, hres]
  have hqueue : Function.update s.exchange.queue k
      (((s.hosts k).acted res).queue.filterMap NetworkCommand.assignmentMessage) =
        s.exchange.queue := by
    show Function.update s.exchange.queue k
      (((s.hosts k).queue ++ res.2).filterMap NetworkCommand.assignmentMessage) = _
    rw [List.filterMap_append, Node.act_assignmentMessage hres ha, List.append_nil]
    exact Function.update_eq_self _ _
  rw [exchange_setHost, hqueue]
  exact .works k (.act a) res.1 _ (List.Subperm.refl _) hnode (Node.act_worksTo hnode ha)

theorem step_exchange_process {k : Fin n} {published : Bool}
    (hs : s.step (.process k published) = some t) : s.exchange.Step t.exchange := by
  obtain ⟨cmd, cs, hq, rfl⟩ := step_process_eq_some.1 hs
  have hqueue : s.exchange.queue k = cmd.assignmentMessage.toList ++
      cs.filterMap NetworkCommand.assignmentMessage := by
    show (s.hosts k).queue.filterMap NetworkCommand.assignmentMessage = _
    rw [hq, filterMap_cons_eq]
  have hset : (s.setHost k { s.hosts k with queue := cs }).exchange =
      { s.exchange with
        queue := Function.update s.exchange.queue k
          (cs.filterMap NetworkCommand.assignmentMessage) } := by
    rw [exchange_setHost]
    have hnodes : Function.update s.exchange.nodes k (s.hosts k).node = s.exchange.nodes :=
      Function.update_eq_self _ _
    rw [hnodes]
  have hpublished : ((if published then cmd.gossip (s.id k) else none).bind
      Gossip.assignmentMessage).toList.flatMap (copies k) =
        if published then cmd.assignmentMessage.toList.flatMap (copies k) else [] := by
    split_ifs
    · rw [cmd.assignmentMessage_gossip]
    · rfl
  rw [exchange_publish, hset, hpublished]
  cases hc : cmd.assignmentMessage with
  | none =>
    rw [hc, Option.toList_none, List.nil_append] at hqueue
    rw [← hqueue, Function.update_eq_self, Option.toList_none, List.flatMap_nil, ite_self,
      List.append_nil]
    exact .stay
  | some msg =>
    rw [hc] at hqueue
    rw [Option.toList_some, List.flatMap_singleton]
    exact .process k msg _ published hqueue

theorem step_exchange_deliver {i : ℕ} {published : Bool} {now : UInt64}
    (hs : s.step (.deliver i published now) = some t) : s.exchange.Step t.exchange := by
  obtain ⟨p, hp, rfl⟩ := step_deliver_eq_some.1 hs
  obtain ⟨hi, hpi⟩ := List.getElem?_eq_some_iff.1 hp
  have hnode : (s.hosts p.dest).node.step (.receive (some p.source) published now p.content) =
    some ((s.hosts p.dest).effect p.source published now p.content).node := rfl
  rw [exchange_deliver]
  -- everything but an assignment message of another host is work of the node
  by_cases hmsg : some p.source ≠ some (s.hosts p.dest).node.id ∧ ∃ msg, p.content = .assignment msg
  · obtain ⟨hne, msg, hg⟩ := hmsg
    have hperm : s.exchange.wire.Perm
        ((p.dest, msg) :: (s.wire.eraseIdx i).filterMap Packet.assignmentMessage) := by
      have hw := (List.getElem_cons_eraseIdx_perm hi).symm.filterMap Packet.assignmentMessage
      rw [hpi, filterMap_cons_eq, Packet.assignmentMessage, hg] at hw
      exact hw
    have heffect : (s.hosts p.dest).effect p.source published now (.assignment msg) =
        ⟨((s.hosts p.dest).node.handleAssignmentMessage published now msg).1,
          ((s.hosts p.dest).node.handleAssignmentMessage published now msg).2.map .assignment,
          none⟩ :=
      if_neg hne
    have hbind : ∀ answer : Option AssignmentMessage,
        (answer.map (Gossip.assignment (X := X))).bind Gossip.assignmentMessage = answer := by
      intro answer
      cases answer <;> rfl
    rw [hg, heffect, hbind]
    exact .deliver p.dest msg _ published now hperm
  · have hnone : ((s.hosts p.dest).effect p.source published now p.content).published = none := by
      show ((s.hosts p.dest).node.onMessage (some p.source) published now p.content).published =
        none
      unfold Node.onMessage
      by_cases hne : some p.source = some (s.hosts p.dest).node.id
      · rw [if_pos hne]
      · rw [if_neg hne]
        cases hg : p.content with
        | assignment msg => exact absurd ⟨hne, msg, hg⟩ hmsg
        | _ => rfl
    rw [hnone, Option.bind_none, Option.toList_none, List.flatMap_nil, List.append_nil]
    rcases Node.step_cases hnode with ⟨_, he, -⟩ | ⟨_, _, _, msg, he, hne, -⟩ | hworks
    · cases he
    · obtain ⟨rfl, -, -, hg⟩ : some p.source = _ ∧ published = _ ∧ now = _ ∧ p.content = _ := by
        simpa using he
      exact absurd ⟨hne, msg, hg⟩ hmsg
    · exact .works p.dest _ _ _ ((List.eraseIdx_sublist _ _).filterMap _).subperm hnode hworks

/-- Every step that abides is a step of the exchange. -/
theorem step_exchange {c : Fin n} {l : HandshakeLabel X n} (hl : l.Abides c)
    (hs : s.handshakeStep l = some t) : s.exchange.Step t.exchange := by
  cases l with
  | net l =>
    cases l with
    | act k a => exact step_exchange_act hl hs
    | process k published => exact step_exchange_process hs
    | deliver i published now => exact step_exchange_deliver hs
  | rehashSession k sid A =>
    obtain ⟨session, hsession, hA, rfl⟩ := rehashSession_eq_some hs
    have hqueue : Function.update s.exchange.queue k
        ((s.hosts k).queue.filterMap NetworkCommand.assignmentMessage) = s.exchange.queue :=
      Function.update_eq_self _ _
    rw [exchange_setHost, hqueue]
    exact .rehashSession k sid session A hsession hA
  | rehashMessage i A =>
    obtain ⟨source, dest, coordinatorId, old, sid, hp, hA, rfl⟩ := rehashMessage_eq_some hs
    obtain ⟨hi, hpi⟩ := List.getElem?_eq_some_iff.1 hp
    have hw := (List.getElem_cons_eraseIdx_perm hi).symm.filterMap Packet.assignmentMessage
    rw [hpi] at hw
    exact .rehashMessage dest coordinatorId sid old A _ _ hw hA
      ((List.set_perm_cons_eraseIdx hi _).filterMap Packet.assignmentMessage)

end Net

/-! ### The opening of the round -/

namespace Exchange

variable {e e' : Exchange X n}

/-- Nothing has been assigned. -/
structure Unassigned (e : Exchange X n) : Prop where
  peers : ∀ k, (e.nodes k).PeersDistinct
  queue : ∀ k, e.queue k = []
  wire : e.wire = []
  sessions : ∀ k, (e.nodes k).sessions = ∅
  slot : ∀ k, (e.nodes k).mpcOrchestrator = none
  retired : ∀ k, (e.nodes k).retired = []

/-- As long as no node assigns, nothing is assigned. -/
theorem Unassigned.step (h : e.Unassigned) (hs : e.Step e') : e'.Unassigned := by
  cases hs with
  | stay => exact h
  | works k l m w hw hl hworks =>
    obtain ⟨hsessions, -, hretired, hslot⟩ := hworks
    have hnone : m.mpcOrchestrator = none := by
      have hroster := (SameRoster.of_works hslot).none_iff
      exact not_not.1 fun hne => hroster.1 hne (h.slot k)
    have hwire : w = [] := by
      rw [h.wire] at hw
      exact List.subperm_nil.1 hw
    exact
      { peers := forall_setNode (fun _ m => m.PeersDistinct) ((h.peers k).step hl) h.peers
        queue := h.queue
        wire := hwire
        sessions := forall_setNode (fun _ m => m.sessions = ∅) (hsessions.trans (h.sessions k))
          h.sessions
        slot := forall_setNode (fun _ m => m.mpcOrchestrator = none) hnone h.slot
        retired := forall_setNode (fun _ m => m.retired = []) (hretired.trans (h.retired k))
          h.retired }
  | process k msg q published hq => simp [h.queue k] at hq
  | deliver k msg w published now hw => simp [h.wire] at hw
  | rehashSession k sid s A hs hA => simp [h.sessions k] at hs
  | rehashMessage k c sid old A w w' hw hA hw' => simp [h.wire] at hw

/-- The exchange after the host `c` has assigned. -/
def assign (e : Exchange X n) (c : Fin n) (now : UInt64) : Exchange X n :=
  { e with
    nodes := Function.update e.nodes c ((e.nodes c).assignPeerIndices now).1
    queue := Function.update e.queue c (e.queue c ++ [((e.nodes c).assignPeerIndices now).2]) }

/-- The round that the host `c` opens. -/
def roundOf (e : Exchange X n) (c : Fin n) (now : UInt64) : Round X n where
  coordinator := c
  ids k := (e.nodes k).id
  sessionId := X.peerToString (e.nodes c).id ++ "-" ++ toString now.toNat
  assignments := (e.nodes c).createAssignments
  peers := (e.nodes c).peerList

theorem valid_roundOf (hX : X.ParsesPeers) (h : e.Unassigned)
    (hids : Function.Injective fun k => (e.nodes k).id) (c : Fin n) (now : UInt64) :
    (e.roundOf c now).Valid := by
  have hpeers : ((e.nodes c).id :: (e.nodes c).peerList).Nodup := h.peers c
  have hcreate : (e.nodes c).createAssignments =
      .ofEntries ((((e.nodes c).id :: (e.nodes c).peerList).map X.peerToString).zipIdx) := rfl
  have hkeys : (((((e.nodes c).id :: (e.nodes c).peerList).map X.peerToString).zipIdx).map
      Prod.fst).Nodup := by
    rw [List.zipIdx_map_fst]
    exact hpeers.map hX.injective
  refine ⟨hids, hpeers, ?_, ?_, ?_⟩
  · intro p
    show p ∈ (e.nodes c).createAssignments ↔ _
    rw [Node.mem_createAssignments, List.map_cons, List.mem_cons]
    rfl
  · show (e.nodes c).createAssignments.entries.length = (e.nodes c).peerList.length + 1
    rw [hcreate, HashMap.entries_ofEntries hkeys]
    simp
  · show ((parsedAssignments (e.nodes c).createAssignments :
      List (X.PeerId × PartyIndex)).map Prod.fst).Nodup
    rw [Node.parsedAssignments_createAssignments hX hpeers, List.map_reverse, List.map_map]
    have hfst : (((e.nodes c).id :: (e.nodes c).peerList).zipIdx.map
        (Prod.fst ∘ fun p => (p.1, UInt16.ofNat p.2))) = (e.nodes c).id :: (e.nodes c).peerList :=
      List.zipIdx_map_fst 0 _
    rw [hfst, List.nodup_reverse]
    exact hpeers

theorem queue_assign (h : e.Unassigned) (c : Fin n) (now : UInt64) :
    (e.assign c now).queue c = [((e.nodes c).assignPeerIndices now).2] := by
  show Function.update e.queue c _ c = _
  rw [Function.update_self, h.queue c]
  rfl

/-- The session that the host `c` has after it has assigned. -/
theorem lookup_assign (h : e.Unassigned) {c : Fin n} {now : UInt64} {sid : String} {s : SessionInfo}
    (hs : ((e.nodes c).assignPeerIndices now).1.sessions.lookup sid = some s) :
    sid = (e.roundOf c now).sessionId ∧ s = .new now (e.roundOf c now).sessionId
      (e.roundOf c now).coordinatorId (e.nodes c).createAssignments := by
  rcases Node.of_lookup_record hs with hnew | hold
  · exact hnew
  · rw [h.sessions c] at hold
    cases hold

theorem slot_assign (h : e.Unassigned) (c : Fin n) (now : UInt64) :
    ∀ k, ((e.assign c now).nodes k).mpcOrchestrator = none :=
  forall_setNode (w := e.wire) (fun _ m => m.mpcOrchestrator = none) (h.slot c) h.slot

theorem OfRound.assign (hX : X.ParsesPeers) (h : e.Unassigned)
    (hids : Function.Injective fun k => (e.nodes k).id) (c : Fin n) (now : UInt64) :
    (e.assign c now).OfRound (e.roundOf c now) where
  ids := forall_setNode (w := e.wire) (fun k m => m.id = (e.nodes k).id) rfl fun _ => rfl
  wellFormed := by
    have hwf : ∀ k, (e.nodes k).WellFormed := by
      intro k
      refine ⟨fun sid s hs => ?_, fun inst hinst => ?_⟩
      · simp [h.sessions k] at hs
      · simp [h.slot k] at hinst
    exact forall_setNode (w := e.wire) (fun _ m => m.WellFormed) ((hwf c).assign now) hwf
  queue := by
    intro k msg hmsg
    by_cases hk : k = c
    · subst hk
      rw [queue_assign h] at hmsg
      exact ⟨rfl, List.mem_singleton.1 hmsg⟩
    · have hnone : (e.assign c now).queue k = [] :=
        (Function.update_of_ne hk ..).trans (h.queue k)
      rw [hnone] at hmsg
      cases hmsg
  wire := by
    intro d msg hmsg
    have hmsg : (d, msg) ∈ e.wire := hmsg
    rw [h.wire] at hmsg
    cases hmsg
  sessions := by
    refine forall_setNode (w := e.wire)
      ((e.roundOf c now).SessionsOf (e.assign c now).Installed) ?_ ?_
    · intro sid s hs
      obtain ⟨rfl, rfl⟩ := lookup_assign h hs
      refine ⟨rfl, List.Perm.refl _, (valid_roundOf hX h hids c now).length_assignments, ?_, ?_⟩
      · intro a ha
        cases ha
      · intro q hq
        cases hq
    · intro k sid s hs
      simp [h.sessions k] at hs
  agreed := by
    intro k inst hinst
    rw [slot_assign h] at hinst
    cases hinst
  once := forall_setNode (w := e.wire) (fun _ m => m.retired = []) (h.retired c) h.retired

theorem Counts.assign (h : e.Unassigned) (c : Fin n) (now : UInt64) :
    (e.assign c now).Counts (e.roundOf c now) where
  one := by
    intro k _
    show ((e.assign c now).queue c).length + e.wire.countP _ + e.wire.countP _ ≤ 1
    rw [queue_assign h, h.wire]
    rfl
  installed := fun k _ hi => absurd (slot_assign h c now k) hi
  counted := by
    rintro k - ⟨s, hs, hq⟩
    have hc : (e.assign c now).nodes (e.roundOf c now).coordinator =
      ((e.nodes c).assignPeerIndices now).1 := Function.update_self ..
    rw [hc] at hs
    obtain ⟨-, rfl⟩ := lookup_assign h hs
    cases hq
  complete := fun hi => absurd (slot_assign h c now _) hi

/-- The assignment opens a round. -/
theorem InRound.assign (hX : X.ParsesPeers) (h : e.Unassigned)
    (hids : Function.Injective fun k => (e.nodes k).id) (c : Fin n) (now : UInt64) :
    (e.assign c now).InRound (e.roundOf c now) :=
  ⟨.assign hX h hids c now, .assign h c now⟩

end Exchange

/-- The assignment of the host `c` is that of the exchange. -/
theorem Net.step_exchange_assign {s t : Net X n} {c : Fin n} {now : UInt64}
    (hs : s.step (.act c (.assignPeerIndices now)) = some t) :
    t.exchange = s.exchange.assign c now := by
  cases hs
  have hqueue : ((s.hosts c).queue ++ [NetworkCommand.broadcast (.assignment
      ((s.hosts c).node.assignPeerIndices now).2)]).filterMap NetworkCommand.assignmentMessage =
        s.exchange.queue c ++ [((s.exchange.nodes c).assignPeerIndices now).2] := by
    rw [List.filterMap_append]
    rfl
  rw [exchange_setHost, Exchange.assign, ← hqueue]
  rfl

end P2pMpc
