import P2pMpc.Lib.Lists
import P2pMpc.Network

/-!
# Who sees the payload of a point-to-point message

Two runs of the network that differ only in the payloads of messages sent to the party `j` are
compared. A point-to-point message is published to the whole topic like any other, so its payload
is among the data every other event loop receives: the received data are the same only up to these
payloads, and the payloads do reach every other host. What the recipient filter keeps to the party
`j` is the rest: every node is in the same state in both runs, and every node whose own index is not
`j` forwards the same to its parties.
-/

namespace P2pMpc

open StateMachine

variable {X : Platform} {n : ℕ} {j : PartyIndex}

/-! ### Equality up to the payloads of messages to one party -/

/-- Two gossip messages are equal, or are both point-to-point to the party `j` and differ in their
payload only. -/
inductive Gossip.EqExcept (j : PartyIndex) : Gossip X → Gossip X → Prop
  | same (g : Gossip X) : EqExcept j g g
  | payload (φ : Phase) (m : MpcAuxMessage X) (b : List UInt8) (hm : m.toParty = some j) :
      EqExcept j (.protocol φ m) (.protocol φ { m with payload := b })

/-- The same for commands; both messages serialize. -/
inductive NetworkCommand.EqExcept (j : PartyIndex) : NetworkCommand X → NetworkCommand X → Prop
  | same (c : NetworkCommand X) : EqExcept j c c
  | payload (φ : Phase) (m m' : X.Msg φ) (h : (X.serialize φ m).isSome)
      (h' : (X.serialize φ m').isSome) :
      EqExcept j (.send φ ⟨.oneParty j, m⟩) (.send φ ⟨.oneParty j, m'⟩)

/-- The same for labels: at most, a party of the host sends another message to the party `j`. -/
inductive NetLabel.EqExcept (j : PartyIndex) : NetLabel X n → NetLabel X n → Prop
  | same (l : NetLabel X n) : EqExcept j l l
  | payload (k : Fin n) (φ : Phase) (m m' : X.Msg φ) (h : (X.serialize φ m).isSome)
      (h' : (X.serialize φ m').isSome) :
      EqExcept j (.act k (.emit φ ⟨.oneParty j, m⟩)) (.act k (.emit φ ⟨.oneParty j, m'⟩))

/-- Two receipts agree in all but the payload of a message to the party `j`, and unless the node had
the index `j` itself, in what was forwarded. -/
structure Receipt.EqExcept (j : PartyIndex) (r r' : Receipt X) : Prop where
  source : r.source = r'.source
  content : r.content.EqExcept j r'.content
  ownIndex : r.ownIndex = r'.ownIndex
  forwarded : r.ownIndex ≠ some j → r.forwarded = r'.forwarded

/-- Two packets have the same source and destination and contents that agree. -/
structure Packet.EqExcept (j : PartyIndex) (p p' : Packet X n) : Prop where
  source : p.source = p'.source
  dest : p.dest = p'.dest
  content : p.content.EqExcept j p'.content

/-- Two hosts have the same node, and commands and receipts that agree. -/
structure Host.EqExcept (j : PartyIndex) (h h' : Host X) : Prop where
  node : h.node = h'.node
  queue : List.Forall₂ (NetworkCommand.EqExcept j) h.queue h'.queue
  received : List.Forall₂ (Receipt.EqExcept j) h.received h'.received

/-- Two states of the network agree. -/
structure Net.EqExcept (j : PartyIndex) (s s' : Net X n) : Prop where
  hosts : ∀ k, (s.hosts k).EqExcept j (s'.hosts k)
  wire : List.Forall₂ (Packet.EqExcept j) s.wire s'.wire

theorem Receipt.EqExcept.refl (r : Receipt X) : r.EqExcept j r := ⟨rfl, .same _, rfl, fun _ => rfl⟩

theorem Packet.EqExcept.refl (p : Packet X n) : p.EqExcept j p := ⟨rfl, rfl, .same _⟩

theorem Net.EqExcept.refl (s : Net X n) : s.EqExcept j s where
  hosts _ := ⟨rfl, List.forall₂_same.2 fun c _ => .same c, List.forall₂_same.2 fun r _ => .refl r⟩
  wire := List.forall₂_same.2 fun p _ => .refl p

/-! ### The parts of a step -/

/-- The gossip messages published for two commands that agree, agree. -/
theorem NetworkCommand.EqExcept.gossip {c c' : NetworkCommand X} (h : c.EqExcept j c')
    (id : X.PeerId) : Option.Rel (Gossip.EqExcept j) (c.gossip id) (c'.gossip id) := by
  cases h with
  | same c =>
    cases c.gossip id with
    | none => exact .none
    | some g => exact .some (.same g)
  | payload φ m m' hm hm' =>
    obtain ⟨b, hb⟩ := Option.isSome_iff_exists.1 hm
    obtain ⟨b', hb'⟩ := Option.isSome_iff_exists.1 hm'
    simp only [NetworkCommand.gossip, wrapOutgoing, hb, hb', Option.map_some]
    exact .some (.payload φ ⟨id, some j, "p2p", b⟩ b' rfl)

/-- A node that has not the index `j` forwards no message to the party `j`. -/
theorem Node.onProtocol_of_ownIndex_ne {m : Node X} (hj : m.ownIndex ≠ some j) (φ : Phase)
    {msg : MpcAuxMessage X} (hmsg : msg.toParty = some j) : m.onProtocol φ msg = none := by
  unfold onProtocol forwardIncoming
  cases hinst : m.mpcOrchestrator with
  | none => rfl
  | some inst =>
    have hne : inst.orch.partyAssignments.lookup m.id ≠ some j := by
      simpa [ownIndex, hinst] using hj
    simp [MpcAuxMessage.notFor, hmsg, hne]

/-- A host handles two messages that agree alike. -/
theorem Host.effect_eqExcept (h : Host X) (source : X.PeerId) (published : Bool) (now : UInt64)
    {g g' : Gossip X} (hg : g.EqExcept j g') :
    (h.effect source published now g).node = (h.effect source published now g').node ∧
    (h.effect source published now g).published = (h.effect source published now g').published ∧
    (h.node.ownIndex ≠ some j → (h.effect source published now g).forwarded =
      (h.effect source published now g').forwarded) := by
  cases hg with
  | same => exact ⟨rfl, rfl, fun _ => rfl⟩
  | payload φ m b hm =>
    by_cases hs : some source = some h.node.id
    · simp [effect, Node.onMessage, hs]
    · simp only [effect, Node.onMessage, if_neg hs, true_and]
      intro hj
      have hb : h.node.onProtocol φ { m with payload := b } = none :=
        Node.onProtocol_of_ownIndex_ne hj φ hm
      exact (Node.onProtocol_of_ownIndex_ne hj φ hm).trans hb.symm

/-- Two hosts that agree still do after they have received two messages that agree, and answer
alike. -/
theorem Host.EqExcept.receive {h h' : Host X} (hh : h.EqExcept j h') (source : X.PeerId)
    (published : Bool) (now : UInt64) {g g' : Gossip X} (hg : g.EqExcept j g') :
    (h.receive source published now g).EqExcept j (h'.receive source published now g') ∧
      (h.effect source published now g).published =
        (h'.effect source published now g').published := by
  obtain ⟨hnode, hpub, hfwd⟩ := h.effect_eqExcept source published now hg
  have heff : h'.effect source published now g' = h.effect source published now g' := by
    simp only [Host.effect, hh.node]
  refine ⟨⟨?_, hh.queue, List.rel_append hh.received (.cons ⟨rfl, hg, ?_, ?_⟩ .nil)⟩, ?_⟩
  · simp only [Host.receive, heff, hnode]
  · simp only [hh.node]
  · simpa only [heff] using hfwd
  · rw [heff, hpub]

namespace Net.EqExcept

variable {s s' : Net X n}

theorem setHost (hs : s.EqExcept j s') (k : Fin n) {h h' : Host X} (hh : h.EqExcept j h') :
    (s.setHost k h).EqExcept j (s'.setHost k h') where
  hosts i := by
    by_cases hi : i = k
    · subst hi
      simpa [Net.setHost] using hh
    · simpa [Net.setHost, hi] using hs.hosts i
  wire := hs.wire

theorem publish (hs : s.EqExcept j s') (k : Fin n) {g g' : Option (Gossip X)}
    (hg : Option.Rel (Gossip.EqExcept j) g g') : (s.publish k g).EqExcept j (s'.publish k g') where
  hosts := hs.hosts
  wire := by
    refine List.rel_append hs.wire ?_
    cases hg with
    | none => exact .nil
    | some hg =>
      simp only [Option.toList_some, List.flatMap_singleton, packets, List.forall₂_map_left_iff,
        List.forall₂_map_right_iff]
      exact List.forall₂_same.2 fun d _ => ⟨congrArg Node.id (hs.hosts k).node, rfl, hg⟩

theorem payload (hs : s.EqExcept j s') (k : Fin n) {φ : Phase} {m m' : X.Msg φ}
    (hm : (X.serialize φ m).isSome) (hm' : (X.serialize φ m').isSome) :
    Option.Rel (Net.EqExcept j) (s.step (.act k (.emit φ ⟨.oneParty j, m⟩)))
      (s'.step (.act k (.emit φ ⟨.oneParty j, m'⟩))) := by
  have hk := hs.hosts k
  simp only [Net.step, Node.act, hk.node]
  cases (s'.hosts k).node.canEmit φ with
  | false => exact .none
  | true =>
    exact .some (hs.setHost k ⟨rfl,
      List.rel_append hk.queue (.cons (.payload φ m m' hm hm') .nil), hk.received⟩)

theorem act (hs : s.EqExcept j s') (k : Fin n) (a : Action X) :
    Option.Rel (Net.EqExcept j) (s.step (.act k a)) (s'.step (.act k a)) := by
  have hk := hs.hosts k
  simp only [Net.step, hk.node]
  cases (s'.hosts k).node.act a with
  | none => exact .none
  | some r =>
    exact .some (hs.setHost k ⟨rfl,
      List.rel_append hk.queue (List.forall₂_same.2 fun c _ => .same c), hk.received⟩)

theorem process (hs : s.EqExcept j s') (k : Fin n) (published : Bool) :
    Option.Rel (Net.EqExcept j) (s.step (.process k published))
      (s'.step (.process k published)) := by
  have hk := hs.hosts k
  have hq := hk.queue
  have hid : s.id k = s'.id k := congrArg Node.id hk.node
  simp only [Net.step]
  cases hc : (s.hosts k).queue with
  | nil =>
    rw [hc, List.forall₂_nil_left_iff] at hq
    rw [hq]
    exact .none
  | cons c cs =>
    rw [hc, List.forall₂_cons_left_iff] at hq
    obtain ⟨c', cs', hcc, hcs, hc'⟩ := hq
    rw [hc']
    have hset : Net.EqExcept j (s.setHost k { s.hosts k with queue := cs })
        (s'.setHost k { s'.hosts k with queue := cs' }) :=
      hs.setHost k ⟨hk.node, hcs, hk.received⟩
    cases published with
    | false => exact .some hset
    | true =>
      refine .some (hset.publish k ?_)
      rw [hid]
      exact hcc.gossip _

theorem deliver (hs : s.EqExcept j s') (i : ℕ) (published : Bool) (now : UInt64) :
    Option.Rel (Net.EqExcept j) (s.step (.deliver i published now))
      (s'.step (.deliver i published now)) := by
  have hw := Lists.forall₂_getElem? hs.wire i
  simp only [Net.step]
  generalize s.wire[i]? = w, s'.wire[i]? = w' at hw
  cases hw with
  | none => exact .none
  | @some p p' hp =>
    obtain ⟨source, d, g⟩ := p
    obtain ⟨source', d', g'⟩ := p'
    obtain ⟨rfl, rfl, hg⟩ := hp
    obtain ⟨hreceive, hpublished⟩ := (hs.hosts d).receive source published now hg
    have herase : Net.EqExcept j { s with wire := s.wire.eraseIdx i }
        { s' with wire := s'.wire.eraseIdx i } :=
      ⟨hs.hosts, Lists.forall₂_eraseIdx hs.wire i⟩
    refine .some ((herase.setHost d hreceive).publish d ?_)
    rw [hpublished]
    cases ((s'.hosts d).effect source published now g').published with
    | none => exact .none
    | some g => exact .some (.same g)

/-- Labels that agree lead from states that agree to states that agree. -/
theorem step (hs : s.EqExcept j s') {l l' : NetLabel X n} (hl : l.EqExcept j l') :
    Option.Rel (Net.EqExcept j) (s.step l) (s'.step l') := by
  cases hl with
  | payload k φ m m' hm hm' => exact hs.payload k hm hm'
  | same l =>
    cases l with
    | act k a => exact hs.act k a
    | process k published => exact hs.process k published
    | deliver i published now => exact hs.deliver i published now

end Net.EqExcept

/-! ### What is published reaches every other node -/

/-- A packet is in flight, or its destination has received what it carries. -/
def Net.Conveys (s : Net X n) (p : Packet X n) : Prop :=
  p ∈ s.wire ∨ ∃ r ∈ (s.hosts p.dest).received, r.source = p.source ∧ r.content = p.content

namespace Net.Conveys

variable {s t : Net X n} {p : Packet X n}

theorem publish (h : s.Conveys p) (k : Fin n) (g : Option (Gossip X)) :
    (s.publish k g).Conveys p := by
  rcases h with hp | hr
  · exact .inl (Net.mem_publish.2 (.inl hp))
  · exact .inr hr

theorem setHost (h : s.Conveys p) (k : Fin n) {h' : Host X}
    (hh' : (s.hosts k).received ⊆ h'.received) : (s.setHost k h').Conveys p := by
  rcases h with hp | ⟨r, hr, hsource, hcontent⟩
  · exact .inl hp
  · refine .inr ⟨r, ?_, hsource, hcontent⟩
    rw [Net.hosts_setHost]
    split_ifs with hk
    · exact hh' (hk ▸ hr)
    · exact hr

theorem deliver (h : s.Conveys p) {i : ℕ} {q : Packet X n} (hq : s.wire[i]? = some q)
    (published : Bool) (now : UInt64) : (s.deliver i q published now).Conveys p := by
  refine .publish ?_ _ _
  rcases h with hp | ⟨r, hr, hsource, hcontent⟩
  · obtain ⟨hi, rfl⟩ := List.getElem?_eq_some_iff.1 hq
    have hperm : (s.wire[i] :: s.wire.eraseIdx i).Perm s.wire := List.getElem_cons_eraseIdx_perm hi
    rcases List.mem_cons.1 (hperm.mem_iff.2 hp) with rfl | hrest
    · refine .inr ⟨⟨s.wire[i].source, s.wire[i].content, (s.hosts s.wire[i].dest).node.ownIndex,
        ((s.hosts s.wire[i].dest).effect s.wire[i].source published now
          s.wire[i].content).forwarded⟩, ?_, rfl, rfl⟩
      simp [Host.receive]
    · exact .inl hrest
  · have herase : Net.Conveys { s with wire := s.wire.eraseIdx i } p :=
      .inr ⟨r, hr, hsource, hcontent⟩
    exact herase.setHost q.dest (List.subset_append_left _ _)

/-- What is in flight is lost in no step. -/
theorem step (h : s.Conveys p) {l : NetLabel X n} (hl : s.step l = some t) : t.Conveys p := by
  cases l with
  | act k a =>
    obtain ⟨r, -, rfl⟩ := Net.step_act_eq_some.1 hl
    exact h.setHost k (List.Subset.refl _)
  | process k published =>
    obtain ⟨c, cs, -, rfl⟩ := Net.step_process_eq_some.1 hl
    have hset : (s.setHost k { s.hosts k with queue := cs }).Conveys p :=
      h.setHost k (List.Subset.refl _)
    exact hset.publish k _
  | deliver i published now =>
    obtain ⟨q, hq, rfl⟩ := Net.step_deliver_eq_some.1 hl
    exact h.deliver hq published now

end Net.Conveys

/-- A point-to-point message that gossipsub takes is carried to every other host. -/
theorem Net.conveys_of_process {u v : Net X n} {k d : Fin n} {φ : Phase} {m : X.Msg φ}
    {cs : List (NetworkCommand X)} {b : List UInt8}
    (hqueue : (u.hosts k).queue = .send φ ⟨.oneParty j, m⟩ :: cs) (hb : X.serialize φ m = some b)
    (hd : d ≠ k) (hl : u.step (.process k true) = some v) :
    v.Conveys ⟨u.id k, d, .protocol φ ⟨u.id k, some j, "p2p", b⟩⟩ := by
  obtain ⟨c, cs', hc, rfl⟩ := Net.step_process_eq_some.1 hl
  obtain ⟨rfl, rfl⟩ := List.cons.inj (hqueue.symm.trans hc)
  refine .inl (Net.mem_publish.2 (.inr ⟨?_, hd, ?_⟩))
  · simp [Net.id]
  · simp [NetworkCommand.gossip, wrapOutgoing, hb]

/-- Two runs from one state that differ only in the payloads of messages sent to the party `j`:
all nodes are in the same states, all event loops have received the same but for these payloads, and
the nodes without the index `j` have forwarded the same to their parties. The payloads themselves
reach everyone: each message to the party `j` that gossipsub takes is received by every other host
with its payload, or is still in flight to it. -/
theorem payload_confined {s t : Net X n} {ls ls' : List (NetLabel X n)}
    (hls : List.Forall₂ (NetLabel.EqExcept j) ls ls')
    (hr : (netMachine X n).run s ls = some t) :
    (∃ t', (netMachine X n).run s ls' = some t' ∧ ∀ k,
      (t.hosts k).node = (t'.hosts k).node ∧
      List.Forall₂ (Receipt.EqExcept j) (t.hosts k).received (t'.hosts k).received) ∧
    ∀ pre k post u φ m cs b, ls = pre ++ .process k true :: post →
      (netMachine X n).run s pre = some u →
      (u.hosts k).queue = .send φ ⟨.oneParty j, m⟩ :: cs → X.serialize φ m = some b →
      ∀ d ≠ k, t.Conveys ⟨u.id k, d, .protocol φ ⟨u.id k, some j, "p2p", b⟩⟩ := by
  constructor
  · have h := Machine.run_lockstep (M := netMachine X n)
      (fun _ _ _ _ hs hl => Net.EqExcept.step hs hl) (Net.EqExcept.refl s) hls
    rw [hr] at h
    generalize (netMachine X n).run s ls' = r at h
    cases h with
    | some ht => exact ⟨_, rfl, fun k => ⟨(ht.hosts k).node, (ht.hosts k).received⟩⟩
  · rintro pre k post u φ m cs b rfl hu hqueue hb d hd
    obtain ⟨u', hu', hpost⟩ := Machine.run_append_eq_some.1 hr
    obtain rfl : u = u' := Option.some.inj (hu.symm.trans hu')
    obtain ⟨v, hv, ht⟩ := Machine.run_cons_eq_some.1 hpost
    exact Machine.run_preserves (M := netMachine X n) (I := fun t => t.Conveys _)
      (fun _ _ _ h hl => h.step hl) (Net.conveys_of_process hqueue hb hd hv) ht

/-! ### A share sent to one party, read by another node -/

namespace LeakRun

open ThreeNodes

/-- The party of `b` sends a message to the party 0. -/
def send (payload : List UInt8) : NetLabel .plain 3 := .act b (.emit .aux ⟨.oneParty 0, payload⟩)

/-- Once the indices are assigned, `b` enters its aux generation and its party sends a message; the
packet to `c` is delivered. -/
def labels (payload : List UInt8) : List (NetLabel .plain 3) :=
  assign ++ [.act b (.initiateAuxGen ⟨0⟩), send payload, .process b true, .process b true,
    .deliver 7 true 5]

/-- The payloads of the protocol messages among some contents. -/
def payloads (gs : List (Gossip .plain)) : List (List UInt8) :=
  gs.filterMap fun g => match g with
    | .protocol _ m => some m.payload
    | _ => none

theorem run_labels (x : List UInt8) : ∃ t, (netMachine .plain 3).run start (labels x) = some t ∧
    (t.hosts b).node.ownIndex = some 1 ∧ (t.hosts c).node.ownIndex = some 2 ∧
    payloads ((t.hosts c).received.map Receipt.content) = [x] :=
  ⟨_, rfl, rfl, rfl, rfl⟩

theorem labels_eqExcept (x y : List UInt8) :
    List.Forall₂ (NetLabel.EqExcept 0) (labels x) (labels y) := by
  have hsend : NetLabel.EqExcept 0 (send x) (send y) :=
    NetLabel.EqExcept.payload (X := .plain) b .aux x y rfl rfl
  have hsame : ∀ ls : List (NetLabel .plain 3), List.Forall₂ (NetLabel.EqExcept 0) ls ls :=
    fun ls => List.forall₂_same.2 fun l _ => .same l
  exact List.rel_append (hsame assign) (.cons (.same _) (.cons hsend (hsame _)))

end LeakRun

open ThreeNodes LeakRun

theorem share_confined : ∃ t, (netMachine .plain 3).run start (labels [1]) = some t ∧
    (∃ t', (netMachine .plain 3).run start (labels [2]) = some t' ∧ ∀ k,
      (t.hosts k).node = (t'.hosts k).node ∧
      List.Forall₂ (Receipt.EqExcept 0) (t.hosts k).received (t'.hosts k).received) ∧
    ∀ d ≠ b, t.Conveys ⟨"b", d, .protocol .aux ⟨"b", some 0, "p2p", [1]⟩⟩ := by
  obtain ⟨t, ht, -⟩ := run_labels [1]
  obtain ⟨hconfined, hcarried⟩ := payload_confined (labels_eqExcept [1] [2]) ht
  refine ⟨t, ht, hconfined, ?_⟩
  exact hcarried (assign ++ [.act b (.initiateAuxGen ⟨0⟩), send [1], .process b true]) b
    [.deliver 7 true 5] _ .aux [1] [] [1] rfl rfl rfl rfl

/-- The event loop of `c`, whose index is 2, receives the payload that `b` sends to the party 0. -/
theorem share_read_by_third : (netMachine .plain 3).init start ∧
    List.Forall₂ (NetLabel.EqExcept 0) (labels [1]) (labels [2]) ∧
    ∃ t t', (netMachine .plain 3).run start (labels [1]) = some t ∧
      (netMachine .plain 3).run start (labels [2]) = some t' ∧
      (t.hosts b).node.ownIndex = some 1 ∧ (t.hosts c).node.ownIndex = some 2 ∧
      (t.hosts c).received.map Receipt.content ≠ (t'.hosts c).received.map Receipt.content := by
  obtain ⟨t, ht, hb, hc, hread⟩ := run_labels [1]
  obtain ⟨t', ht', -, -, hread'⟩ := run_labels [2]
  refine ⟨⟨ids, ids_injective, rfl⟩, labels_eqExcept [1] [2], t, t', ht, ht', hb, hc, fun h => ?_⟩
  rw [h, hread'] at hread
  exact absurd hread (by decide)

end P2pMpc
