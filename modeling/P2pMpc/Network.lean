import Mathlib.Data.Fintype.Basic
import Mathlib.Data.List.FinRange
import P2pMpc.Node

/-!
# The network

`n` nodes and the messages between them. What a node publishes becomes one packet for every other
node, and each packet is delivered once, in any order; libp2p's gossipsub is assumed to behave so.
Whether gossipsub takes a publication is chosen by the label.

A host keeps, beside its node and its command channel, a log of the protocol messages its parties
have sent and of the messages its event loop has received. Nothing reads the logs.
-/

namespace P2pMpc

open StateMachine

variable {X : Platform} {n : ℕ}

/-- A protocol message and its phase. -/
abbrev Emission (X : Platform) := Σ φ, Outgoing (X.Msg φ)

/-- What the event loop of the node `id` publishes for a command; a message that does not serialize
is dropped. -/
def NetworkCommand.gossip (id : X.PeerId) : NetworkCommand X → Option (Gossip X)
  | .broadcast g => some g
  | .send φ out => (wrapOutgoing id φ out).map (.protocol φ)

/-- The protocol message of a command. -/
def NetworkCommand.emission : NetworkCommand X → Option (Emission X)
  | .broadcast _ => none
  | .send φ out => some ⟨φ, out⟩

/-- The party index of a node in its installed orchestrator. -/
def Node.ownIndex (m : Node X) : Option PartyIndex :=
  m.mpcOrchestrator.bind fun inst => inst.orch.partyAssignments.lookup m.id

/-- A message the event loop has received: its source, its content, the index the node had then,
and what it forwarded to a party. -/
structure Receipt (X : Platform) where
  source : X.PeerId
  content : Gossip X
  ownIndex : Option PartyIndex
  forwarded : Option (Forwarded X)

/-- A node with its command channel and the two logs. -/
structure Host (X : Platform) where
  node : Node X
  queue : List (NetworkCommand X)
  emitted : List (Emission X)
  received : List (Receipt X)

/-- A gossip message on its way to one node. -/
structure Packet (X : Platform) (n : ℕ) where
  source : X.PeerId
  dest : Fin n
  content : Gossip X

/-- The state of the network. -/
structure Net (X : Platform) (n : ℕ) where
  hosts : Fin n → Host X
  wire : List (Packet X n)

/-- The steps of the network: a node acts, an event loop takes the next command from its channel,
or a packet is delivered. -/
inductive NetLabel (X : Platform) (n : ℕ)
  | act (k : Fin n) (a : Action X)
  | process (k : Fin n) (published : Bool)
  | deliver (i : ℕ) (published : Bool) (now : UInt64)

/-- A host that has just started. -/
def Host.new (id : X.PeerId) : Host X := ⟨.new id, [], [], []⟩

/-- The host after an action of its node. -/
def Host.acted (h : Host X) (r : Node X × List (NetworkCommand X)) : Host X :=
  { h with
    node := r.1
    queue := h.queue ++ r.2
    emitted := h.emitted ++ r.2.filterMap NetworkCommand.emission }

/-- What a message does at a host. -/
def Host.effect (h : Host X) (source : X.PeerId) (published : Bool) (now : UInt64)
    (g : Gossip X) : Effect X :=
  h.node.onMessage (some source) published now g

/-- The host after its event loop has handled a message. -/
def Host.receive (h : Host X) (source : X.PeerId) (published : Bool) (now : UInt64)
    (g : Gossip X) : Host X :=
  { h with
    node := (h.effect source published now g).node
    received := h.received ++
      [⟨source, g, h.node.ownIndex, (h.effect source published now g).forwarded⟩] }

namespace Net

/-- The peer id of a host. -/
def id (s : Net X n) (k : Fin n) : X.PeerId := (s.hosts k).node.id

/-- The state with one host replaced. -/
def setHost (s : Net X n) (k : Fin n) (h : Host X) : Net X n :=
  { s with hosts := Function.update s.hosts k h }

/-- The packets of a gossip message published by the host `k`. -/
def packets (s : Net X n) (k : Fin n) (g : Gossip X) : List (Packet X n) :=
  ((List.finRange n).filter (· ≠ k)).map fun d => ⟨s.id k, d, g⟩

/-- The state after the publication of a gossip message, if there is one. -/
def publish (s : Net X n) (k : Fin n) (g : Option (Gossip X)) : Net X n :=
  { s with wire := s.wire ++ g.toList.flatMap (s.packets k) }

/-- The state after `p`, the packet at the position `i` of the wire, is delivered. -/
def deliver (s : Net X n) (i : ℕ) (p : Packet X n) (published : Bool) (now : UInt64) : Net X n :=
  let h := s.hosts p.dest
  let s' := { s with wire := s.wire.eraseIdx i }
  (s'.setHost p.dest (h.receive p.source published now p.content)).publish p.dest
    (h.effect p.source published now p.content).published

/-- One step of the network. -/
def step (s : Net X n) : NetLabel X n → Option (Net X n)
  | .act k a => ((s.hosts k).node.act a).map fun r => s.setHost k ((s.hosts k).acted r)
  | .process k published =>
      match (s.hosts k).queue with
      | [] => none
      | c :: cs =>
        let s' := s.setHost k { s.hosts k with queue := cs }
        some (if published then s'.publish k (c.gossip (s.id k)) else s')
  | .deliver i published now =>
      s.wire[i]?.map fun p => s.deliver i p published now

end Net

/-- The network of `n` nodes with different peer ids, from their start on. -/
def netMachine (X : Platform) (n : ℕ) : Machine (Net X n) (NetLabel X n) where
  init s := ∃ ids : Fin n → X.PeerId, Function.Injective ids ∧ s = ⟨fun k => .new (ids k), []⟩
  step := Net.step

/-! ### What a step of the network does -/

namespace Net

variable {s t : Net X n} {k : Fin n}

@[simp] theorem hosts_setHost (s : Net X n) (k i : Fin n) (h : Host X) :
    (s.setHost k h).hosts i = if i = k then h else s.hosts i :=
  Function.update_apply s.hosts k h i

@[simp] theorem hosts_publish (s : Net X n) (k : Fin n) (g : Option (Gossip X)) :
    (s.publish k g).hosts = s.hosts := rfl

@[simp] theorem publish_none (s : Net X n) (k : Fin n) : s.publish k none = s := by
  simp [publish]

/-- The packets of a publication are for the other hosts. -/
theorem mem_packets {g : Gossip X} {p : Packet X n} :
    p ∈ s.packets k g ↔ p.source = s.id k ∧ p.dest ≠ k ∧ p.content = g := by
  obtain ⟨source, dest, content⟩ := p
  simp only [packets, List.mem_map, List.mem_filter, List.mem_finRange, true_and,
    decide_eq_true_eq, Packet.mk.injEq]
  constructor
  · rintro ⟨d, hd, rfl, rfl, rfl⟩
    exact ⟨rfl, hd, rfl⟩
  · rintro ⟨rfl, hd, rfl⟩
    exact ⟨dest, hd, rfl, rfl, rfl⟩

/-- What is in flight after a publication. -/
theorem mem_publish {g : Option (Gossip X)} {p : Packet X n} : p ∈ (s.publish k g).wire ↔
    p ∈ s.wire ∨ (p.source = s.id k ∧ p.dest ≠ k ∧ g = some p.content) := by
  rw [publish, List.mem_append, List.mem_flatMap]
  simp only [mem_packets, Option.mem_toList]
  constructor
  · rintro (hp | ⟨g', hg, hsource, hdest, rfl⟩)
    · exact .inl hp
    · exact .inr ⟨hsource, hdest, hg⟩
  · rintro (hp | ⟨hsource, hdest, hg⟩)
    · exact .inl hp
    · exact .inr ⟨p.content, hg, hsource, hdest, rfl⟩

theorem step_act_eq_some {a : Action X} : s.step (.act k a) = some t ↔
    ∃ r, (s.hosts k).node.act a = some r ∧ t = s.setHost k ((s.hosts k).acted r) := by
  simp only [step, Option.map_eq_some_iff, eq_comm (a := t)]

/-- A command that is not taken by gossipsub is dropped. -/
theorem step_process_eq_some {published : Bool} : s.step (.process k published) = some t ↔
    ∃ c cs, (s.hosts k).queue = c :: cs ∧ t = (s.setHost k { s.hosts k with queue := cs }).publish k
      (if published then c.gossip (s.id k) else none) := by
  simp only [step]
  cases (s.hosts k).queue with
  | nil => simp
  | cons c cs => cases published <;> simp [publish_none, eq_comm]

theorem step_deliver_eq_some {i : ℕ} {published : Bool} {now : UInt64} :
    s.step (.deliver i published now) = some t ↔
      ∃ p, s.wire[i]? = some p ∧ t = s.deliver i p published now := by
  simp only [step, Option.map_eq_some_iff, eq_comm (a := t)]

/-- The step that a node takes in a step of the network. -/
def nodeLabel (s : Net X n) (k : Fin n) : NetLabel X n → Option (NodeLabel X)
  | .act j a => if j = k then some (.act a) else none
  | .process _ _ => none
  | .deliver i published now =>
      s.wire[i]?.bind fun p =>
        if p.dest = k then some (.receive (some p.source) published now p.content) else none

theorem nodeLabel_eq_some {l : NetLabel X n} {nl : NodeLabel X} (h : s.nodeLabel k l = some nl) :
    (∃ a, l = .act k a ∧ nl = .act a) ∨
    ∃ i published now p, l = .deliver i published now ∧ s.wire[i]? = some p ∧ p.dest = k ∧
      nl = .receive (some p.source) published now p.content := by
  cases l with
  | act j a =>
    obtain ⟨rfl, he⟩ := Option.ite_none_right_eq_some.1 h
    exact .inl ⟨a, rfl, (Option.some.inj he).symm⟩
  | process => cases h
  | deliver i published now =>
    obtain ⟨p, hp, hl⟩ := Option.bind_eq_some_iff.1 h
    obtain ⟨hk, he⟩ := Option.ite_none_right_eq_some.1 hl
    exact .inr ⟨i, published, now, p, rfl, hp, hk, (Option.some.inj he).symm⟩

theorem step_nodeLabel {l : NetLabel X n} (h : s.step l = some t) (k : Fin n) :
    (s.nodeLabel k l = none ∧ (t.hosts k).node = (s.hosts k).node) ∨
      ∃ nl, s.nodeLabel k l = some nl ∧ (s.hosts k).node.step nl = some (t.hosts k).node := by
  cases l with
  | act j a =>
    obtain ⟨r, hr, rfl⟩ := step_act_eq_some.1 h
    by_cases hk : j = k
    · subst hk
      refine .inr ⟨.act a, if_pos rfl, ?_⟩
      simp [Host.acted, Node.step, hr]
    · exact .inl ⟨if_neg hk, by simp [Ne.symm hk]⟩
  | process j published =>
    refine .inl ⟨rfl, ?_⟩
    obtain ⟨c, cs, -, rfl⟩ := step_process_eq_some.1 h
    rw [hosts_publish, hosts_setHost]
    split_ifs with hk
    · rw [hk]
    · rfl
  | deliver i published now =>
    obtain ⟨p, hp, rfl⟩ := step_deliver_eq_some.1 h
    rw [nodeLabel, hp, Option.bind_some]
    by_cases hk : p.dest = k
    · subst hk
      refine .inr ⟨_, if_pos rfl, ?_⟩
      simp [deliver, Host.receive, Host.effect, Node.step]
    · exact .inl ⟨if_neg hk, by simp [deliver, Ne.symm hk]⟩

/-- What a step of the network does to the node of each host: nothing, or a step of that node. -/
theorem step_node {l : NetLabel X n} (h : s.step l = some t) (k : Fin n) :
    (t.hosts k).node = (s.hosts k).node ∨
      ∃ nl, (s.hosts k).node.step nl = some (t.hosts k).node := by
  rcases step_nodeLabel h k with ⟨-, he⟩ | ⟨nl, -, hnl⟩
  · exact .inl he
  · exact .inr ⟨nl, hnl⟩

end Net

/-- The node of every host of a reachable network is reachable by itself. -/
theorem reachable_node {s : Net X n} (h : (netMachine X n).Reachable s) (k : Fin n) :
    (nodeMachine X).Reachable (s.hosts k).node := by
  refine h.induct (I := fun s => (nodeMachine X).Reachable (s.hosts k).node) ?_ ?_
  · rintro _ ⟨ids, -, rfl⟩
    exact .of_init ⟨ids k, rfl⟩
  · intro s l t hs hl
    rcases Net.step_node hl k with he | ⟨nl, hnl⟩
    · rw [he]
      exact hs
    · exact hs.step hnl

/-! ### Three nodes -/

namespace ThreeNodes

def a : Fin 3 := 0

def b : Fin 3 := 1

def c : Fin 3 := 2

def ids : Fin 3 → String
  | 0 => "a"
  | 1 => "b"
  | 2 => "c"

theorem ids_injective : Function.Injective ids := by decide

def start : Net .plain 3 := ⟨fun k => .new (ids k), []⟩

/-- The node `a` assigns the indices 0, 1 and 2 to `a`, `b` and `c`; `b` and `c` accept. -/
def assign : List (NetLabel .plain 3) :=
  [.act a (.identify "b"), .act a (.identify "c"), .act a (.assignPeerIndices 5), .process a true,
    .deliver 0 true 5, .deliver 0 true 5]

end ThreeNodes

end P2pMpc
