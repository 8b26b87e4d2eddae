import Mathlib.Tactic.Abel
import P2pMpc.Lib.Lists
import P2pMpc.Network

/-!
# Whether protocol messages are lost

Every protocol message that a party sends is accounted for: for each pair of hosts, the messages
sent by one and addressed to the other are, as a multiset, those still queued, those in flight,
those enqueued at the receiver, and those delivered and dropped. A message is dropped exactly
when the receiver has no open channel for its phase at the moment of its delivery, which is so
before it has handled the Initiate message of the phase.
-/

namespace P2pMpc

open StateMachine Lists

variable {X : Platform} {n : ℕ}

/-! ### What is addressed to a node -/

/-- A value of the channel of a party. -/
abbrev Arrival (X : Platform) := Σ φ, Incoming (X.Msg φ)

def Forwarded.arrival (f : Forwarded X) : Arrival X := ⟨f.phase, f.incoming⟩

/-- The destination includes the party with the index `own`, if there is one. -/
def MessageDestination.includes (own : Option PartyIndex) : MessageDestination → Bool
  | .allParties => own.isSome
  | .oneParty i => own == some i

def MessageDestination.msgType : MessageDestination → MessageType
  | .allParties => .broadcast
  | .oneParty _ => .p2p

/-- Under the assignment `A`, what the node `q` is to enqueue for a message sent by a party of the
node `p`. -/
def Emission.arrival (A : HashMap X.PeerId PartyIndex) (p q : X.PeerId) (e : Emission X) :
    Option (Arrival X) :=
  if e.2.recipient.includes (A.lookup q) then
    (A.lookup p).map fun sender => ⟨e.1, ⟨0, sender, e.2.recipient.msgType, e.2.msg⟩⟩
  else none

def Gossip.isProtocol : Gossip X → Bool
  | .protocol _ _ => true
  | _ => false

/-- Under the assignment `A`, what the node `q` is to enqueue for a gossip message. -/
def Gossip.arrival (A : HashMap X.PeerId PartyIndex) (q : X.PeerId) : Gossip X → Option (Arrival X)
  | .protocol φ m =>
    if q ∈ A ∧ m.notFor (A.lookup q) = false then
      (X.deserialize φ m.payload).bind fun msg =>
        (A.lookup m.fromPeer).map fun sender => ⟨φ, incomingOf sender m.msgType msg⟩
    else none
  | _ => none

theorem Gossip.arrival_eq_none {A : HashMap X.PeerId PartyIndex} {q : X.PeerId} {g : Gossip X}
    (hg : g.isProtocol = false) : g.arrival A q = none := by
  cases g <;> first | rfl | cases hg

/-- The channel of the phase is open: an orchestrator is installed whose party is running the
protocol of the phase. -/
def Node.isOpen (m : Node X) (φ : Phase) : Bool :=
  match m.mpcOrchestrator with
  | none => false
  | some inst => match inst.orch.incomingTx φ with
    | none => false
    | some chan => inst.receiverAlive φ chan

theorem Node.isOpen_iff {m : Node X} {φ : Phase} : m.isOpen φ = true ↔
    ∃ inst chan, m.mpcOrchestrator = some inst ∧ inst.orch.incomingTx φ = some chan ∧
      inst.receiverAlive φ chan = true := by
  unfold isOpen
  cases m.mpcOrchestrator with
  | none => simp
  | some inst => cases h : inst.orch.incomingTx φ <;> simp [h]

/-- The party whose receiver is alive runs its protocol. -/
theorem Instance.runs_of_receiverAlive {inst : Instance X} {φ : Phase} {chan : ChannelId}
    (h : inst.receiverAlive φ chan = true) : (inst.tasks.any fun t => t.runs φ) = true := by
  obtain ⟨t, ht, hr⟩ := List.any_eq_true.1 h
  refine List.any_eq_true.2 ⟨t, ht, ?_⟩
  unfold Task.receives at hr
  split at hr <;> first | rfl | cases hr

theorem Node.canEmit_of_isOpen {m : Node X} {φ : Phase} (h : m.isOpen φ = true) :
    m.canEmit φ = true := by
  obtain ⟨inst, chan, hinst, -, halive⟩ := isOpen_iff.1 h
  exact List.any_eq_true.2 ⟨inst, by simp [hinst], Instance.runs_of_receiverAlive halive⟩

/-! ### Honest runs -/

def NetworkCommand.isProtocol : NetworkCommand X → Bool
  | .broadcast g => g.isProtocol
  | .send _ _ => true

/-- A command that is no protocol message put together by hand, and whose payload serializes. -/
def NetworkCommand.honest : NetworkCommand X → Bool
  | .broadcast g => !g.isProtocol
  | .send φ out => (X.serialize φ out.msg).isSome

/-- An action whose commands are honest. -/
def Action.honest : Action X → Bool
  | .broadcast g => !g.isProtocol
  | .emit φ out => (X.serialize φ out.msg).isSome
  | _ => true

/-- A step that acts honestly; gossipsub takes what is published. -/
def NetLabel.honest : NetLabel X n → Bool
  | .act _ a => a.honest
  | .process _ published => published
  | .deliver _ _ _ => true

/-- The installed orchestrator of the node, if there is one, has the assignment `A`, and the node
is assigned an index. -/
def Node.Follows (A : HashMap X.PeerId PartyIndex) (m : Node X) : Prop :=
  ∀ inst ∈ m.mpcOrchestrator, inst.orch.partyAssignments.entries.Perm A.entries ∧ m.id ∈ A

/-- A step of an honest run under the assignment `A`. -/
def Net.HonestStep (A : HashMap X.PeerId PartyIndex) (s : Net X n) (l : NetLabel X n) : Prop :=
  l.honest = true ∧ ∀ k, (s.hosts k).node.Follows A

theorem Node.act_honest {m : Node X} {a : Action X} {r : Node X × List (NetworkCommand X)}
    (h : m.act a = some r) (ha : a.honest = true) : ∀ c ∈ r.2, c.honest = true := by
  intro c hc
  rcases act_sends h with ⟨φ, out, rfl, -, rfl⟩ | ⟨g, rfl, rfl⟩ | ⟨now, -, he⟩ | ⟨p, msg, -, he⟩ |
      ⟨-, he⟩
  · rw [List.mem_singleton.1 hc]
    exact ha
  · rw [List.mem_singleton.1 hc]
    exact ha
  · rw [he] at hc
    rw [List.mem_singleton.1 hc]
    rfl
  · rw [he] at hc
    rw [List.mem_singleton.1 hc]
    rfl
  · rw [he] at hc
    cases hc

/-! ### A message from its emission to its delivery -/

/-- What is published for an honest command is to be enqueued as the message it sends. -/
theorem NetworkCommand.gossip_arrival (hX : X.Lawful) (A : HashMap X.PeerId PartyIndex)
    {c : NetworkCommand X} (hc : c.honest = true) (p q : X.PeerId) :
    (c.gossip p).bind (Gossip.arrival A q) = c.emission.bind (Emission.arrival A p q) := by
  cases c with
  | broadcast g => cases g <;> first | rfl | cases hc
  | send φ out =>
    obtain ⟨recipient, msg⟩ := out
    obtain ⟨b, hb⟩ := Option.isSome_iff_exists.1 hc
    have hmsg : X.deserialize φ b = some msg := hX.deserialize_serialize φ msg b hb
    cases recipient with
    | allParties =>
      simp [gossip, wrapOutgoing, hb, emission, Gossip.arrival, Emission.arrival, hmsg,
        MessageDestination.includes, MessageDestination.msgType, MpcAuxMessage.notFor, incomingOf,
        AList.lookup_isSome]
    | oneParty i =>
      have hfor : (q ∈ A ∧ A.lookup q = some i) ↔ A.lookup q = some i :=
        and_iff_right_of_imp fun h => AList.lookup_isSome.1 (by simp [h])
      simp [gossip, wrapOutgoing, hb, emission, Gossip.arrival, Emission.arrival, hmsg,
        MessageDestination.includes, MessageDestination.msgType, MpcAuxMessage.notFor, incomingOf,
        hfor]

/-- A node that follows the assignment enqueues what it is to enqueue, if the channel is open, and
nothing otherwise. -/
theorem Node.forwarded_eq_some {A : HashMap X.PeerId PartyIndex} {m : Node X} (hm : m.Follows A)
    {source : X.PeerId} (hs : source ≠ m.id) (published : Bool) (now : UInt64) (g : Gossip X)
    {a : Arrival X} :
    (m.onMessage (some source) published now g).forwarded.map Forwarded.arrival = some a ↔
      g.arrival A m.id = some a ∧ m.isOpen a.1 = true := by
  have hs' : ¬ some source = some m.id := fun h => hs (Option.some.inj h)
  simp only [onMessage, if_neg hs']
  cases g with
  | assignment | coordination | other => simp [Gossip.arrival]
  | protocol φ msg =>
    have hperm : ∀ inst, m.mpcOrchestrator = some inst →
        (∀ p, inst.orch.partyAssignments.lookup p = A.lookup p) ∧ m.id ∈ A :=
      fun inst hinst => ⟨fun p => AList.perm_lookup (hm inst hinst).1, (hm inst hinst).2⟩
    simp only [onProtocol]
    constructor
    · intro h
      cases hf : forwardIncoming m.id m.mpcOrchestrator φ msg with
      | error e => simp [hf] at h
      | ok r =>
        obtain ⟨inst, inner, sender, chan, hinst, hfor, hinner, hsender, hchan, halive, rfl⟩ :=
          forwardIncoming_eq_ok.1 hf
        obtain ⟨hlookup, hmem⟩ := hperm inst hinst
        rw [hlookup] at hfor hsender
        simp only [hf, Option.map_some, Option.some.injEq] at h
        subst h
        refine ⟨?_, isOpen_iff.2 ⟨inst, chan, hinst, hchan, halive⟩⟩
        simp [Gossip.arrival, hmem, hfor, hinner, hsender, Forwarded.arrival]
    · rintro ⟨harr, hopen⟩
      simp only [Gossip.arrival, Option.ite_none_right_eq_some, Option.bind_eq_some_iff,
        Option.map_eq_some_iff] at harr
      obtain ⟨⟨-, hfor⟩, inner, hinner, sender, hsender, rfl⟩ := harr
      obtain ⟨inst, chan, hinst, hchan, halive⟩ := isOpen_iff.1 hopen
      have hlookup := (hperm inst hinst).1
      rw [forwardIncoming_eq_ok.2 ⟨inst, inner, sender, chan, hinst, by rw [hlookup, hfor], hinner,
        by rw [hlookup, hsender], hchan, halive, rfl⟩]
      rfl

theorem Node.forwarded_arrival {A : HashMap X.PeerId PartyIndex} {m : Node X} (hm : m.Follows A)
    {source : X.PeerId} (hs : source ≠ m.id) (published : Bool) (now : UInt64) (g : Gossip X) :
    (m.onMessage (some source) published now g).forwarded.map Forwarded.arrival =
      (g.arrival A m.id).filter fun a => m.isOpen a.1 :=
  Option.ext fun a => by rw [forwarded_eq_some hm hs, Option.filter_eq_some_iff]

/-! ### The books of a pair of hosts -/

namespace Net

variable (A : HashMap X.PeerId PartyIndex)

/-- The messages of the parties of the host `i` that the host `k` is to enqueue. -/
def addressed (s : Net X n) (i k : Fin n) : Multiset (Arrival X) :=
  (s.hosts i).emitted.filterMap (Emission.arrival A (s.id i) (s.id k))

/-- The messages of the host `i` that the host `k` has enqueued. -/
def enqueued (s : Net X n) (i k : Fin n) : Multiset (Arrival X) :=
  (s.hosts k).received.filterMap fun r =>
    if r.source = s.id i then r.forwarded.map Forwarded.arrival else none

/-- What the host `k` is to enqueue for a packet, if it goes from the host `i` to `k`. -/
def between (s : Net X n) (i k : Fin n) (p : Packet X n) : Option (Arrival X) :=
  if p.source = s.id i ∧ p.dest = k then p.content.arrival A (s.id k) else none

/-- Those that are in flight. -/
def inFlight (s : Net X n) (i k : Fin n) : Multiset (Arrival X) :=
  s.wire.filterMap (s.between A i k)

/-- Those that wait in the command channel. -/
def queued (s : Net X n) (i k : Fin n) : Multiset (Arrival X) :=
  (s.hosts i).queue.filterMap fun c => (c.gossip (s.id i)).bind (Gossip.arrival A (s.id k))

def accounted (s : Net X n) (i k : Fin n) : Multiset (Arrival X) :=
  s.enqueued i k + s.inFlight A i k + s.queued A i k

/-- What a delivery drops of the messages of the host `i` for the host `k`. -/
def dropped (s : Net X n) : NetLabel X n → Fin n → Fin n → Option (Arrival X)
  | .deliver idx _ _, i, k =>
      (s.wire[idx]?.bind (s.between A i k)).filter fun a => !(s.hosts k).node.isOpen a.1
  | _, _, _ => none

end Net

/-! ### Identities are kept -/

namespace Net

variable {s t : Net X n} {A : HashMap X.PeerId PartyIndex}

theorem id_setHost {k : Fin n} {h : Host X} (hh : h.node.id = s.id k) :
    (s.setHost k h).id = s.id := by
  funext i
  by_cases hi : i = k
  · subst hi
    simpa [id] using hh
  · simp [id, hi]

theorem id_act {k : Fin n} {a : Action X} {r : Node X × List (NetworkCommand X)}
    (h : (s.hosts k).node.act a = some r) : r.1.id = s.id k :=
  (Node.step_slot (l := .act a) (by simp [Node.step, h])).1

theorem id_receive (h : Host X) (source : X.PeerId) (published : Bool) (now : UInt64)
    (g : Gossip X) : (h.receive source published now g).node.id = h.node.id :=
  (Node.step_slot (l := .receive (some source) published now g) rfl).1

theorem id_deliver {i : ℕ} {p : Packet X n} {published : Bool} {now : UInt64} :
    (s.deliver i p published now).id = s.id :=
  id_setHost (s := { s with wire := s.wire.eraseIdx i }) (id_receive _ _ _ _ _)

/-- No step changes the peer id of a host. -/
theorem step_id {l : NetLabel X n} (h : s.step l = some t) : t.id = s.id := by
  cases l with
  | act k a =>
    obtain ⟨r, hr, rfl⟩ := step_act_eq_some.1 h
    exact id_setHost (id_act hr)
  | process k published =>
    obtain ⟨c, cs, -, rfl⟩ := step_process_eq_some.1 h
    exact id_setHost (s := s) rfl
  | deliver i published now =>
    obtain ⟨p, -, rfl⟩ := step_deliver_eq_some.1 h
    exact id_deliver

/-! ### Packets -/

/-- One packet of what the host `h` publishes goes to each other host. -/
theorem packets_between (hinj : Function.Injective s.id) (h : Fin n) (g : Gossip X) {i k : Fin n}
    (hik : i ≠ k) : (s.packets h g).filterMap (s.between A i k) =
      if i = h then (g.arrival A (s.id k)).toList else [] := by
  simp only [packets, List.filterMap_map, between, Function.comp_def]
  by_cases hih : i = h
  · subst hih
    simp only [true_and, if_pos]
    exact filterMap_ite_eq ((List.nodup_finRange n).filter _)
      (List.mem_filter.2 ⟨List.mem_finRange k, decide_eq_true hik.symm⟩) _
  · have hne : s.id h ≠ s.id i := fun he => hih (hinj he.symm)
    simp [hih, hne]

/-! ### What is added to a list is added to its books -/

variable {i k : Fin n}

theorem addressed_append (hid : t.id = s.id) {es : List (Emission X)}
    (h : (t.hosts i).emitted = (s.hosts i).emitted ++ es) : t.addressed A i k =
      s.addressed A i k + ↑(es.filterMap (Emission.arrival A (s.id i) (s.id k))) := by
  rw [addressed, addressed, hid, h, List.filterMap_append, Multiset.coe_add]

theorem enqueued_append (hid : t.id = s.id) {rs : List (Receipt X)}
    (h : (t.hosts k).received = (s.hosts k).received ++ rs) : t.enqueued i k =
      s.enqueued i k + ↑(rs.filterMap fun r =>
        if r.source = s.id i then r.forwarded.map Forwarded.arrival else none) := by
  rw [enqueued, enqueued, hid, h, List.filterMap_append, Multiset.coe_add]

theorem queued_append (hid : t.id = s.id) {cs : List (NetworkCommand X)}
    (h : (t.hosts i).queue = (s.hosts i).queue ++ cs) : t.queued A i k =
      s.queued A i k + ↑(cs.filterMap fun c =>
        (c.gossip (s.id i)).bind (Gossip.arrival A (s.id k))) := by
  rw [queued, queued, hid, h, List.filterMap_append, Multiset.coe_add]

theorem inFlight_append (hid : t.id = s.id) {ps : List (Packet X n)}
    (h : t.wire = s.wire ++ ps) : t.inFlight A i k =
      s.inFlight A i k + ↑(ps.filterMap (s.between A i k)) := by
  have hbetween : t.between A i k = s.between A i k := by
    funext p
    rw [between, between, hid]
  rw [inFlight, inFlight, hbetween, h, List.filterMap_append, Multiset.coe_add]

/-! ### One step -/

/-- An honest action adds the same messages to those addressed and to those queued. -/
theorem balance_act (hX : X.Lawful) {h : Fin n} {a : Action X}
    {r : Node X × List (NetworkCommand X)} (hr : (s.hosts h).node.act a = some r)
    (ha : a.honest = true) (ht : t = s.setHost h ((s.hosts h).acted r)) : ∃ δ,
      t.addressed A i k = s.addressed A i k + δ ∧ t.accounted A i k = s.accounted A i k + δ := by
  have hid : t.id = s.id := by
    rw [ht]
    exact id_setHost (id_act hr)
  -- the commands the action adds to the channel of the host `i`
  obtain ⟨cs, hcs, hemitted, hqueue⟩ : ∃ cs : List (NetworkCommand X),
      (∀ c ∈ cs, c.honest = true) ∧
      (t.hosts i).emitted = (s.hosts i).emitted ++ cs.filterMap NetworkCommand.emission ∧
      (t.hosts i).queue = (s.hosts i).queue ++ cs := by
    rw [ht, hosts_setHost]
    split_ifs with hih
    · subst hih
      exact ⟨r.2, Node.act_honest hr ha, rfl, rfl⟩
    · exact ⟨[], by simp⟩
  have hreceived : (t.hosts k).received = (s.hosts k).received ++ [] := by
    rw [ht, hosts_setHost]
    split_ifs with hkh
    · subst hkh
      exact (List.append_nil _).symm
    · exact (List.append_nil _).symm
  have hwire : t.wire = s.wire ++ [] := by
    rw [ht]
    exact (List.append_nil _).symm
  have hcommands : (cs.filterMap fun c => (c.gossip (s.id i)).bind (Gossip.arrival A (s.id k))) =
      cs.filterMap fun c => c.emission.bind (Emission.arrival A (s.id i) (s.id k)) :=
    List.filterMap_congr fun c hc => NetworkCommand.gossip_arrival hX A (hcs c hc) _ _
  refine ⟨_, addressed_append hid hemitted, ?_⟩
  rw [accounted, enqueued_append hid hreceived, inFlight_append hid hwire,
    queued_append hid hqueue, hcommands, List.filterMap_filterMap]
  simp only [List.filterMap_nil, Multiset.coe_nil, add_zero, accounted, add_assoc]

/-- A publication moves messages from the command channel to the wire. -/
theorem balance_process (hinj : Function.Injective s.id) {h : Fin n} {c : NetworkCommand X}
    {cs : List (NetworkCommand X)} (hq : (s.hosts h).queue = c :: cs) (hik : i ≠ k)
    (ht : t = (s.setHost h { s.hosts h with queue := cs }).publish h (c.gossip (s.id h))) :
    t.addressed A i k = s.addressed A i k ∧ t.accounted A i k = s.accounted A i k := by
  have hid : t.id = s.id := by
    rw [ht]
    exact id_setHost (s := s) rfl
  have hhosts : t.hosts = (s.setHost h { s.hosts h with queue := cs }).hosts := by rw [ht]; rfl
  have hlogs : ∀ j, (t.hosts j).emitted = (s.hosts j).emitted ++ [] ∧
      (t.hosts j).received = (s.hosts j).received ++ [] := by
    intro j
    rw [hhosts, hosts_setHost, List.append_nil, List.append_nil]
    split_ifs with hj
    · subst hj
      exact ⟨rfl, rfl⟩
    · exact ⟨rfl, rfl⟩
  have hpackets : (s.setHost h { s.hosts h with queue := cs }).packets h = s.packets h := by
    funext g
    simp only [packets, id_setHost (s := s) (h := { s.hosts h with queue := cs }) rfl]
  have hwire : t.wire = s.wire ++ (c.gossip (s.id h)).toList.flatMap (s.packets h) := by
    rw [ht, publish, hpackets]
    rfl
  constructor
  · rw [addressed_append hid (hlogs i).1]
    simp
  · have hqueued : s.queued A i k = t.queued A i k +
        ↑(if i = h then ((c.gossip (s.id h)).bind (Gossip.arrival A (s.id k))).toList else []) := by
      rw [queued, queued, hid, hhosts, hosts_setHost]
      split_ifs with hih
      · subst hih
        rw [hq, filterMap_cons_eq, add_comm, Multiset.coe_add]
      · simp
    rw [accounted, enqueued_append hid (hlogs k).2, inFlight_append hid hwire, accounted, hqueued]
    cases c.gossip (s.id h) with
    | none => simp
    | some g =>
      rw [Option.toList_some, List.flatMap_singleton, packets_between hinj h g hik,
        Option.bind_some, List.filterMap_nil, Multiset.coe_nil]
      abel

section Deliver

variable {idx : ℕ} {p : Packet X n} {published : Bool} {now : UInt64}

theorem hosts_deliver (j : Fin n) : (s.deliver idx p published now).hosts j =
    if j = p.dest then (s.hosts p.dest).receive p.source published now p.content
    else s.hosts j := by
  rw [deliver, hosts_publish, hosts_setHost]

/-- A delivery takes its packet off the wire; what it publishes is no protocol message. -/
theorem inFlight_deliver (hp : s.wire[idx]? = some p) : s.inFlight A i k =
    ↑(s.between A i k p).toList + (s.deliver idx p published now).inFlight A i k := by
  obtain ⟨ps, hwire, hps⟩ : ∃ ps, (s.deliver idx p published now).wire =
      s.wire.eraseIdx idx ++ ps ∧ ∀ q ∈ ps, q.content.isProtocol = false := by
    refine ⟨_, rfl, fun q hq => ?_⟩
    obtain ⟨g, hg, hq⟩ := List.mem_flatMap.1 hq
    obtain ⟨msg, hmsg⟩ := Node.onMessage_published (Option.mem_toList.1 hg)
    rw [(mem_packets.1 hq).2.2, hmsg]
    rfl
  have hnone : ps.filterMap (s.between A i k) = [] := by
    apply List.filterMap_eq_nil_iff.2
    intro q hq
    simp [between, Gossip.arrival_eq_none (hps q hq)]
  have hbetween : (s.deliver idx p published now).between A i k = s.between A i k := by
    funext q
    rw [between, between, id_deliver]
  obtain ⟨hidx, rfl⟩ := List.getElem?_eq_some_iff.1 hp
  rw [inFlight, inFlight, hwire, hbetween, List.filterMap_append, hnone, List.append_nil,
    Multiset.coe_add, ← filterMap_cons_eq]
  apply Multiset.coe_eq_coe.2
  exact (List.getElem_cons_eraseIdx_perm hidx).symm.filterMap _

/-- What the packet carries is enqueued if the channel is open. -/
theorem enqueued_deliver (hinj : Function.Injective s.id)
    (hA : (s.hosts p.dest).node.Follows A) (hik : i ≠ k) :
    (s.deliver idx p published now).enqueued i k = s.enqueued i k +
      ↑((s.between A i k p).filter fun a => (s.hosts k).node.isOpen a.1).toList := by
  by_cases hk : k = p.dest
  · subst hk
    have hreceived : ((s.deliver idx p published now).hosts p.dest).received =
        (s.hosts p.dest).received ++ [⟨p.source, p.content, (s.hosts p.dest).node.ownIndex,
          ((s.hosts p.dest).effect p.source published now p.content).forwarded⟩] := by
      rw [hosts_deliver, if_pos rfl]
      rfl
    rw [enqueued_append id_deliver hreceived, filterMap_cons_eq, List.filterMap_nil,
      List.append_nil, between]
    by_cases hsource : p.source = s.id i
    · have hne : p.source ≠ (s.hosts p.dest).node.id :=
        fun h => hik (hinj (hsource.symm.trans h))
      rw [if_pos hsource, if_pos ⟨hsource, rfl⟩, Host.effect, Node.forwarded_arrival hA hne]
      rfl
    · simp [hsource]
  · have hreceived : ((s.deliver idx p published now).hosts k).received =
        (s.hosts k).received ++ [] := by
      rw [hosts_deliver, if_neg hk, List.append_nil]
    rw [enqueued_append id_deliver hreceived, between, if_neg fun h => hk h.2.symm]
    simp

/-- A delivery moves a message from the wire to the party, or drops it. -/
theorem balance_deliver (hinj : Function.Injective s.id)
    (hA : (s.hosts p.dest).node.Follows A) (hik : i ≠ k) (hp : s.wire[idx]? = some p) :
    (s.deliver idx p published now).addressed A i k = s.addressed A i k ∧
      (s.deliver idx p published now).accounted A i k +
        ↑(s.dropped A (.deliver idx published now) i k).toList = s.accounted A i k := by
  have hsame : ((s.deliver idx p published now).hosts i).emitted = (s.hosts i).emitted ++ [] ∧
      ((s.deliver idx p published now).hosts i).queue = (s.hosts i).queue ++ [] := by
    rw [hosts_deliver, List.append_nil, List.append_nil]
    split_ifs with hi
    · subst hi
      exact ⟨rfl, rfl⟩
    · exact ⟨rfl, rfl⟩
  constructor
  · rw [addressed_append id_deliver hsame.1]
    simp
  · rw [accounted, enqueued_deliver hinj hA hik, queued_append id_deliver hsame.2, accounted,
      inFlight_deliver hp, dropped, hp, Option.bind_some, List.filterMap_nil, Multiset.coe_nil,
      ← filter_add_filter_not (fun a => (s.hosts k).node.isOpen a.1) (s.between A i k p)]
    abel

end Deliver

/-- For two hosts, an honest step adds the same messages to those addressed and to those accounted
for, except that what it drops is no longer accounted for. -/
theorem balance_step (hX : X.Lawful) (hinj : Function.Injective s.id) {l : NetLabel X n}
    (hl : s.HonestStep A l) (h : s.step l = some t) (hik : i ≠ k) : ∃ δ,
      t.addressed A i k = s.addressed A i k + δ ∧
      t.accounted A i k + ↑(s.dropped A l i k).toList = s.accounted A i k + δ := by
  obtain ⟨hhonest, hA⟩ := hl
  cases l with
  | act h' a =>
    obtain ⟨r, hr, rfl⟩ := step_act_eq_some.1 h
    obtain ⟨δ, haddressed, haccounted⟩ := balance_act hX hr hhonest (i := i) (k := k) rfl
    exact ⟨δ, haddressed, by simpa [dropped] using haccounted⟩
  | process h' published =>
    obtain rfl : published = true := hhonest
    obtain ⟨c, cs, hq, ht⟩ := step_process_eq_some.1 h
    obtain ⟨haddressed, haccounted⟩ := balance_process (A := A) hinj hq hik ht
    exact ⟨0, by simpa using haddressed, by simpa [dropped] using haccounted⟩
  | deliver idx published now =>
    obtain ⟨p, hp, rfl⟩ := step_deliver_eq_some.1 h
    obtain ⟨haddressed, haccounted⟩ := balance_deliver hinj (hA p.dest) hik hp
    exact ⟨0, by simpa using haddressed, by simpa using haccounted⟩

/-- A packet in flight was there before the step, or comes from another host than its
destination. -/
theorem mem_wire_of_step {l : NetLabel X n} (h : s.step l = some t) {p : Packet X n}
    (hp : p ∈ t.wire) : p ∈ s.wire ∨ ∃ i, i ≠ p.dest ∧ p.source = s.id i := by
  cases l with
  | act j a =>
    obtain ⟨r, -, rfl⟩ := step_act_eq_some.1 h
    exact .inl hp
  | process j published =>
    obtain ⟨c, cs, -, rfl⟩ := step_process_eq_some.1 h
    rcases mem_publish.1 hp with hp | ⟨hsource, hdest, -⟩
    · exact .inl hp
    · refine .inr ⟨j, hdest.symm, ?_⟩
      rw [hsource]
      exact congrFun (id_setHost (s := s) (h := { s.hosts j with queue := cs }) rfl) j
  | deliver idx published now =>
    obtain ⟨q, -, rfl⟩ := step_deliver_eq_some.1 h
    rcases mem_publish.1 hp with hp | ⟨hsource, hdest, -⟩
    · exact .inl (List.mem_of_mem_eraseIdx hp)
    · exact .inr ⟨q.dest, hdest.symm, hsource.trans (congrFun id_deliver q.dest)⟩

/-! ### Runs -/

/-- The delivery finds the channel open if the message is one that the host is to enqueue. -/
def DeliversOpen (A : HashMap X.PeerId PartyIndex) (s : Net X n) : NetLabel X n → Prop
  | .deliver idx _ _ => ∀ p ∈ s.wire[idx]?, ∀ a ∈ p.content.arrival A (s.id p.dest),
      (s.hosts p.dest).node.isOpen a.1 = true
  | _ => True

/-- No protocol message is queued or in flight. -/
structure Settled (s : Net X n) : Prop where
  queue : ∀ k, ∀ c ∈ (s.hosts k).queue, c.isProtocol = false
  wire : ∀ p ∈ s.wire, p.content.isProtocol = false

/-- The hosts have different peer ids, the logs are empty, and the network is settled. -/
structure Quiet (s : Net X n) : Prop extends s.Settled where
  id_injective : Function.Injective s.id
  emitted : ∀ k, (s.hosts k).emitted = []
  received : ∀ k, (s.hosts k).received = []

/-- What holds in an honest run: no more is accounted for than was addressed. -/
structure Sound (A : HashMap X.PeerId PartyIndex) (s : Net X n) : Prop where
  id_injective : Function.Injective s.id
  source : ∀ p ∈ s.wire, p.content.isProtocol = true → ∃ i, i ≠ p.dest ∧ p.source = s.id i
  bounded : ∀ i k, i ≠ k → s.accounted A i k ≤ s.addressed A i k

/-- Everything that was addressed is accounted for. -/
def Balanced (A : HashMap X.PeerId PartyIndex) (s : Net X n) : Prop :=
  ∀ i k, i ≠ k → s.accounted A i k = s.addressed A i k

theorem dropped_eq_none_iff (hs : s.Sound A) (l : NetLabel X n) :
    (∀ i k, i ≠ k → s.dropped A l i k = none) ↔ s.DeliversOpen A l := by
  cases l with
  | act | process => simp [dropped, DeliversOpen]
  | deliver idx published now =>
    constructor
    · intro h p hp a ha
      have hprotocol : p.content.isProtocol = true := by
        by_contra hno
        rw [Gossip.arrival_eq_none (by simpa using hno)] at ha
        cases ha
      obtain ⟨i, hi, hsource⟩ := hs.source p (List.mem_of_getElem? hp) hprotocol
      have hnone := h i p.dest hi
      rw [Option.mem_def] at hp ha
      rw [dropped, hp, Option.bind_some, between, if_pos ⟨hsource, rfl⟩, ha] at hnone
      simpa [Option.filter] using hnone
    · intro h i k _
      refine Option.eq_none_iff_forall_ne_some.2 fun a ha => ?_
      obtain ⟨hbind, hclosed⟩ := Option.filter_eq_some_iff.1 ha
      obtain ⟨p, hp, hbetween⟩ := Option.bind_eq_some_iff.1 hbind
      obtain ⟨⟨-, rfl⟩, harrival⟩ := (Option.ite_none_right_eq_some.1 hbetween)
      simp [h p hp a harrival] at hclosed

theorem Sound.step (hX : X.Lawful) (hs : s.Sound A) {l : NetLabel X n} (hl : s.HonestStep A l)
    (h : s.step l = some t) : t.Sound A where
  id_injective := step_id h ▸ hs.id_injective
  source p hp hprotocol := by
    rw [step_id h]
    exact (mem_wire_of_step h hp).elim (fun hp => hs.source p hp hprotocol) fun hsource => hsource
  bounded i k hik := by
    obtain ⟨δ, haddressed, haccounted⟩ := balance_step hX hs.id_injective hl h hik
    calc t.accounted A i k ≤ t.accounted A i k + ↑(s.dropped A l i k).toList :=
          Multiset.le_add_right _ _
      _ = s.accounted A i k + δ := haccounted
      _ ≤ s.addressed A i k + δ := Multiset.add_le_add_right (hs.bounded i k hik)
      _ = t.addressed A i k := haddressed.symm

/-- An honest step keeps the books balanced exactly if it drops nothing. -/
theorem balanced_step (hX : X.Lawful) (hs : s.Sound A) {l : NetLabel X n} (hl : s.HonestStep A l)
    (h : s.step l = some t) : t.Balanced A ↔ s.Balanced A ∧ s.DeliversOpen A l := by
  rw [← dropped_eq_none_iff hs]
  simp only [Balanced, ← forall_and]
  refine forall_congr' fun i => forall_congr' fun k => forall_congr' fun hik => ?_
  obtain ⟨δ, haddressed, haccounted⟩ := balance_step hX hs.id_injective hl h hik
  constructor
  · intro ht
    have hs' : s.accounted A i k = s.addressed A i k + ↑(s.dropped A l i k).toList := by
      refine add_right_cancel (b := δ) ?_
      rw [← haccounted, ht, haddressed]
      abel
    have hzero : (↑(s.dropped A l i k).toList : Multiset (Arrival X)) = 0 := by
      have hle := hs.bounded i k hik
      rw [hs', add_le_iff_nonpos_right] at hle
      exact le_antisymm hle (Multiset.zero_le _)
    refine ⟨by rw [hs', hzero, add_zero], ?_⟩
    simpa using hzero
  · rintro ⟨hs', hnone⟩
    rw [haddressed, ← hs', ← haccounted, hnone]
    simp

theorem Settled.of_empty (hqueue : ∀ k, (s.hosts k).queue = []) (hwire : s.wire = []) :
    s.Settled where
  queue k c hc := by
    rw [hqueue k] at hc
    cases hc
  wire p hp := by
    rw [hwire] at hp
    cases hp

theorem Settled.accounted (hs : s.Settled) (i k : Fin n) :
    s.accounted A i k = s.enqueued i k := by
  have hinFlight : s.wire.filterMap (s.between A i k) = [] :=
    List.filterMap_eq_nil_iff.2 fun p hp => by
      simp [between, Gossip.arrival_eq_none (hs.wire p hp)]
  have hqueued : ((s.hosts i).queue.filterMap fun c =>
      (c.gossip (s.id i)).bind (Gossip.arrival A (s.id k))) = [] :=
    List.filterMap_eq_nil_iff.2 fun c hc => by
      have hno := hs.queue i c hc
      cases c with
      | broadcast g => exact Gossip.arrival_eq_none hno
      | send φ out => cases hno
  simp [Net.accounted, inFlight, queued, hinFlight, hqueued]

theorem Quiet.balanced (hs : s.Quiet) : s.Balanced A := fun i k _ => by
  simp [hs.toSettled.accounted, enqueued, addressed, hs.emitted i, hs.received k]

theorem Quiet.sound (hs : s.Quiet) : s.Sound A where
  id_injective := hs.id_injective
  source p hp hprotocol := by
    rw [hs.wire p hp] at hprotocol
    cases hprotocol
  bounded i k hik := (hs.balanced i k hik).le

/-- In an honest run from a quiet state, when the network is settled again: every host has
enqueued exactly the messages that were addressed to it, each of them once, if and only if each of
them was delivered while the channel of its phase was open. -/
theorem all_enqueued_iff (hX : X.Lawful) {ls : List (NetLabel X n)} (hs : s.Quiet)
    (hh : (netMachine X n).Meets (HonestStep A) s ls) (hr : (netMachine X n).run s ls = some t)
    (ht : t.Settled) :
    (∀ i k, i ≠ k → t.enqueued i k = t.addressed A i k) ↔
      (netMachine X n).Meets (DeliversOpen A) s ls := by
  have h := Machine.run_iff_meets_of_meets (M := netMachine X n)
    (fun _ _ _ hs hl h => Sound.step hX hs hl h) (fun _ _ _ hs hl h => balanced_step hX hs hl h)
    hs.sound hh hr
  rw [and_iff_right hs.balanced] at h
  rw [← h]
  simp only [Balanced, ht.accounted]

end Net

/-! ### A message before the Initiate message and after it -/

instance (A : HashMap X.PeerId PartyIndex) (m : Node X) : Decidable (m.Follows A) :=
  inferInstanceAs (Decidable (∀ inst ∈ m.mpcOrchestrator, _ ∧ _))

instance (A : HashMap X.PeerId PartyIndex) (s : Net X n) (l : NetLabel X n) :
    Decidable (s.HonestStep A l) :=
  inferInstanceAs (Decidable (_ ∧ ∀ k, (s.hosts k).node.Follows A))

instance (A : HashMap X.PeerId PartyIndex) (s : Net X n) :
    (l : NetLabel X n) → Decidable (s.DeliversOpen A l)
  | .deliver idx _ _ => inferInstanceAs (Decidable (∀ p ∈ s.wire[idx]?,
      ∀ a ∈ p.content.arrival A (s.id p.dest), (s.hosts p.dest).node.isOpen a.1 = true))
  | .act _ _ => .isTrue trivial
  | .process _ _ => .isTrue trivial

namespace DeliveryRun

open ThreeNodes

def assignment : HashMap Platform.plain.PeerId PartyIndex :=
  .ofEntries [("a", 0), ("b", 1), ("c", 2)]

/-- Once the indices are assigned and all have accepted, `a` initiates the aux generation; `b`
enters it and its party broadcasts. In flight are then the Initiate message for `c` and the
message of `b` for `a` and for `c`. -/
def labels : List (NetLabel .plain 3) :=
  assign ++ [.deliver 0 true 5, .deliver 1 true 5, .deliver 0 true 5, .deliver 0 true 5,
    .act a (.initiateAuxGen ⟨0⟩), .process a true, .deliver 0 true 5,
    .act b (.emit .aux ⟨.allParties, ([1] : List UInt8)⟩), .process b true]

/-- `c` receives the Initiate message first. -/
def inOrder : List (NetLabel .plain 3) :=
  labels ++ [.deliver 0 true 5, .deliver 0 true 5, .deliver 0 true 5]

/-- `c` receives the message of `b` first. -/
def overtaken : List (NetLabel .plain 3) :=
  labels ++ [.deliver 2 true 5, .deliver 0 true 5, .deliver 0 true 5]

theorem start_quiet : start.Quiet where
  queue _ _ hc := by cases hc
  wire _ hp := by cases hp
  id_injective := ids_injective
  emitted _ := rfl
  received _ := rfl

theorem settled_inOrder : ∃ t, (netMachine .plain 3).run start inOrder = some t ∧ t.Settled :=
  ⟨_, rfl, .of_empty (fun | 0 => rfl | 1 => rfl | 2 => rfl) rfl⟩

end DeliveryRun

open ThreeNodes DeliveryRun

theorem in_order_message_enqueued : ∃ t, (netMachine .plain 3).run start inOrder = some t ∧
    ∀ i k, i ≠ k → t.enqueued i k = t.addressed assignment i k := by
  obtain ⟨t, hr, ht⟩ := settled_inOrder
  have hopen : (netMachine .plain 3).Meets (Net.DeliversOpen assignment) start inOrder := by
    decide +kernel
  exact ⟨t, hr, (Net.all_enqueued_iff Platform.plain_lawful start_quiet (by decide +kernel) hr
    ht).2 hopen⟩

/-- The message of `b` is addressed to `c`, is delivered to it before the Initiate message, and is
lost, though in the end all three parties run the protocol. -/
theorem overtaking_message_lost : (netMachine .plain 3).init start ∧
    (netMachine .plain 3).Meets (Net.HonestStep assignment) start overtaken ∧
    ∃ t, (netMachine .plain 3).run start overtaken = some t ∧ t.Settled ∧
      (∀ k, (t.hosts k).node.isOpen .aux = true) ∧ t.enqueued b c = 0 ∧
      t.addressed assignment b c = {⟨.aux, ⟨0, 1, .broadcast, ([1] : List UInt8)⟩⟩} := by
  refine ⟨⟨ids, ids_injective, rfl⟩, by decide +kernel, _, rfl, ?_, ?_, rfl, rfl⟩
  · exact .of_empty (fun | 0 => rfl | 1 => rfl | 2 => rfl) rfl
  · exact fun | 0 => rfl | 1 => rfl | 2 => rfl

end P2pMpc
