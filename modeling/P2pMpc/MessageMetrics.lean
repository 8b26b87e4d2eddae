import P2pMpc.Executions
import P2pMpc.HandshakeCompletes

/-!
# The metrics of the protocol messages

The event loop counts, for each protocol, the messages it has published and those it has received,
and beside them, in one pair of counters for both directions, how many were broadcasts and how many
were for one party. A message for one party is published to all nodes and counted by all of them.
`message_counters_balance` is what this adds up to over a network.

Counters are natural numbers here.
-/

namespace P2pMpc

open StateMachine

variable {X : Platform} {n : ℕ}

/-- `MPC_MESSAGES_SENT`, `MPC_MESSAGES_RECEIVED`, `MPC_BROADCAST_MESSAGES` and `MPC_P2P_MESSAGES`,
for each protocol. -/
structure MessageMetrics where
  sent : Phase → ℕ
  received : Phase → ℕ
  broadcast : Phase → ℕ
  p2p : Phase → ℕ

namespace MessageMetrics

def new : MessageMetrics := ⟨fun _ => 0, fun _ => 0, fun _ => 0, fun _ => 0⟩

/-- The counter of the kind. -/
def ofKind (m : MessageMetrics) : Bool → Phase → ℕ
  | true => m.broadcast
  | false => m.p2p

/-- The count of a message by its `msg_type`. -/
def countKind (m : MessageMetrics) (φ : Phase) (msgType : String) : MessageMetrics :=
  if msgType = "broadcast" then
    { m with broadcast := Function.update m.broadcast φ (m.broadcast φ + 1) }
  else { m with p2p := Function.update m.p2p φ (m.p2p φ + 1) }

/-- A message has been published. -/
def countSent (m : MessageMetrics) (φ : Phase) (msgType : String) : MessageMetrics :=
  { m with sent := Function.update m.sent φ (m.sent φ + 1) }.countKind φ msgType

/-- A message has been received. -/
def countReceived (m : MessageMetrics) (φ : Phase) (msgType : String) : MessageMetrics :=
  { m with received := Function.update m.received φ (m.received φ + 1) }.countKind φ msgType

variable (m : MessageMetrics) (φ ψ : Phase) (msgType : String)

@[simp] theorem sent_countKind : (m.countKind φ msgType).sent = m.sent := by
  unfold countKind
  split_ifs <;> rfl

@[simp] theorem received_countKind : (m.countKind φ msgType).received = m.received := by
  unfold countKind
  split_ifs <;> rfl

/-- Of the counters of the kinds one goes up, that of the kind and the protocol of the message. -/
theorem ofKind_countKind (b : Bool) : (m.countKind φ msgType).ofKind b ψ =
    m.ofKind b ψ + if φ = ψ ∧ decide (msgType = "broadcast") = b then 1 else 0 := by
  unfold countKind
  by_cases hφ : φ = ψ
  · subst hφ
    by_cases htype : msgType = "broadcast" <;> cases b <;> simp [htype, ofKind]
  · by_cases htype : msgType = "broadcast" <;> cases b <;>
      simp [htype, ofKind, hφ, Function.update_of_ne (Ne.symm hφ)]

theorem sent_countSent : (m.countSent φ msgType).sent ψ =
    m.sent ψ + if φ = ψ then 1 else 0 := by
  rw [countSent, sent_countKind]
  show Function.update m.sent φ (m.sent φ + 1) ψ = _
  rw [Function.update_apply]
  by_cases hφ : φ = ψ
  · simp [hφ]
  · simp [hφ, Ne.symm hφ]

theorem received_countReceived : (m.countReceived φ msgType).received ψ =
    m.received ψ + if φ = ψ then 1 else 0 := by
  rw [countReceived, received_countKind]
  show Function.update m.received φ (m.received φ + 1) ψ = _
  rw [Function.update_apply]
  by_cases hφ : φ = ψ
  · simp [hφ]
  · simp [hφ, Ne.symm hφ]

@[simp] theorem received_countSent : (m.countSent φ msgType).received = m.received :=
  received_countKind _ _ _

@[simp] theorem sent_countReceived : (m.countReceived φ msgType).sent = m.sent :=
  sent_countKind _ _ _

theorem ofKind_countSent (b : Bool) : (m.countSent φ msgType).ofKind b ψ =
    m.ofKind b ψ + if φ = ψ ∧ decide (msgType = "broadcast") = b then 1 else 0 := by
  rw [countSent, ofKind_countKind]
  cases b <;> rfl

theorem ofKind_countReceived (b : Bool) : (m.countReceived φ msgType).ofKind b ψ =
    m.ofKind b ψ + if φ = ψ ∧ decide (msgType = "broadcast") = b then 1 else 0 := by
  rw [countReceived, ofKind_countKind]
  cases b <;> rfl

/-- Every message is counted once by its direction and once by its kind. -/
def Balanced : Prop := ∀ φ, m.broadcast φ + m.p2p φ = m.sent φ + m.received φ

variable {m}

theorem Balanced.countSent (h : m.Balanced) : (m.countSent φ msgType).Balanced := by
  intro ψ
  have hb := m.ofKind_countSent φ ψ msgType true
  have hp := m.ofKind_countSent φ ψ msgType false
  have hs := m.sent_countSent φ ψ msgType
  have hψ := h ψ
  simp only [ofKind] at hb hp
  rw [hb, hp, hs, received_countSent]
  by_cases hφ : φ = ψ <;> by_cases htype : msgType = "broadcast" <;> simp [hφ, htype] <;> omega

theorem Balanced.countReceived (h : m.Balanced) : (m.countReceived φ msgType).Balanced := by
  intro ψ
  have hb := m.ofKind_countReceived φ ψ msgType true
  have hp := m.ofKind_countReceived φ ψ msgType false
  have hr := m.received_countReceived φ ψ msgType
  have hψ := h ψ
  simp only [ofKind] at hb hp
  rw [hb, hp, hr, sent_countReceived]
  by_cases hφ : φ = ψ <;> by_cases htype : msgType = "broadcast" <;> simp [hφ, htype] <;> omega

end MessageMetrics

/-- What the metrics of one host add to a sum over the hosts. -/
theorem sum_update_metrics (metrics : Fin n → MessageMetrics) (k : Fin n) (m : MessageMetrics)
    (f : MessageMetrics → ℕ) :
    ∑ i, f (Function.update metrics k m i) + f (metrics k) = ∑ i, f (metrics i) + f m := by
  have hnew := Finset.add_sum_erase Finset.univ (fun i => f (Function.update metrics k m i))
    (Finset.mem_univ k)
  have hold := Finset.add_sum_erase Finset.univ (fun i => f (metrics i)) (Finset.mem_univ k)
  have hrest : ∑ i ∈ Finset.univ.erase k, f (Function.update metrics k m i) =
      ∑ i ∈ Finset.univ.erase k, f (metrics i) := by
    refine Finset.sum_congr rfl fun i hi => ?_
    rw [Function.update_of_ne (Finset.ne_of_mem_erase hi)]
  rw [hrest, Function.update_self] at hnew
  omega

/-- A network with the metrics of each host. -/
structure Metered (X : Platform) (n : ℕ) where
  net : Net X n
  metrics : Fin n → MessageMetrics

namespace Metered

/-- The metrics after a step of the network. -/
def count (s : Metered X n) : NetLabel X n → Fin n → MessageMetrics
  | .act _ _ => s.metrics
  | .process k published =>
      match (s.net.hosts k).queue with
      | .send φ out :: _ =>
        match wrapOutgoing (s.net.id k) φ out with
        | some msg =>
          if published then
            Function.update s.metrics k ((s.metrics k).countSent φ msg.msgType)
          else s.metrics
        | none => s.metrics
      | _ => s.metrics
  | .deliver i _ _ =>
      match s.net.wire[i]? with
      | some ⟨source, dest, .protocol φ msg⟩ =>
        if source = s.net.id dest then s.metrics
        else Function.update s.metrics dest ((s.metrics dest).countReceived φ msg.msgType)
      | _ => s.metrics

def step (s : Metered X n) (l : NetLabel X n) : Option (Metered X n) :=
  (s.net.step l).map fun t => ⟨t, s.count l⟩

end Metered

/-- A network from its start on, with its metrics. -/
def meteredMachine (X : Platform) (n : ℕ) : Machine (Metered X n) (NetLabel X n) where
  init s := (netMachine X n).init s.net ∧ s.metrics = fun _ => .new
  step := Metered.step

/-- The protocol of a message and whether it is a broadcast. -/
def Gossip.kind : Gossip X → Option (Phase × Bool)
  | .protocol φ msg => some (φ, msg.msgType = "broadcast")
  | _ => none

theorem Gossip.kind_eq_none {g : Gossip X} (hg : g.isProtocol = false) : g.kind = none := by
  cases g <;> first | rfl | cases hg

/-- Of the broadcasts that an action puts into the channel none is a protocol message, unless the
action is to send one put together by hand. -/
theorem Node.act_broadcast {m : Node X} {a : Action X} {r : Node X × List (NetworkCommand X)}
    (hr : m.act a = some r) {k : Fin n} (hhand : (NetLabel.act k a).byHand = false) {g : Gossip X}
    (hg : .broadcast g ∈ r.2) : g.isProtocol = false := by
  rcases act_sends hr with ⟨φ, out, -, -, rfl⟩ | ⟨g', rfl, rfl⟩ | ⟨now, -, he⟩ | ⟨p, msg, -, he⟩ |
      ⟨-, he⟩
  · cases List.mem_singleton.1 hg
  · cases List.mem_singleton.1 hg
    exact hhand
  · rw [he] at hg
    cases List.mem_singleton.1 hg
    rfl
  · rw [he] at hg
    cases List.mem_singleton.1 hg
    rfl
  · rw [he] at hg
    cases hg

namespace Metered

/-- The law of the totals for given metrics and packets. -/
def Total (metrics : Fin n → MessageMetrics) (wire : List (Packet X n)) (N : Bool → Phase → ℕ) :
    Prop :=
  ∀ φ, ∑ k, (metrics k).sent φ = N true φ + N false φ ∧
    ∀ b, ∑ k, (metrics k).ofKind b φ + wire.countP (fun p => p.content.kind = some (φ, b)) =
      n * N b φ

/-- One more message of a kind published. -/
def addOne (N : Bool → Phase → ℕ) (c : Bool) (ψ : Phase) (b : Bool) (φ : Phase) : ℕ :=
  N b φ + if ψ = φ ∧ c = b then 1 else 0

theorem countP_packets (net : Net X n) (k : Fin n) (g : Gossip X) (φ : Phase) (b : Bool) :
    (net.packets k g).countP (fun p => p.content.kind = some (φ, b)) =
      if g.kind = some (φ, b) then n - 1 else 0 := by
  have hlength : (net.packets k g).length = n - 1 := by
    rw [Net.packets, List.length_map]
    exact Net.length_others k
  split_ifs with hkind
  · rw [← hlength, List.countP_eq_length]
    exact fun p hp => by simpa [(Net.mem_packets.1 hp).2.2] using hkind
  · rw [List.countP_eq_zero]
    exact fun p hp => by simpa [(Net.mem_packets.1 hp).2.2] using hkind

/-- What is published without a protocol message changes no count. -/
theorem Total.publish_other {metrics : Fin n → MessageMetrics} (net : Net X n)
    {N : Bool → Phase → ℕ} (h : Total metrics net.wire N) {k : Fin n} {g : Option (Gossip X)}
    (hg : ∀ g' ∈ g, g'.kind = none) : Total metrics (net.publish k g).wire N := by
  intro φ
  refine ⟨(h φ).1, fun b => ?_⟩
  cases g with
  | none => simpa using (h φ).2 b
  | some g =>
    have hkind : ¬ g.kind = some (φ, b) := by simp [hg g rfl]
    rw [Net.publish, Option.toList_some, List.flatMap_singleton, List.countP_append,
      countP_packets, if_neg hkind]
    exact (h φ).2 b

/-- A protocol message that is published counts at its host and `n - 1` times in flight. -/
theorem Total.publish {metrics : Fin n → MessageMetrics} (net : Net X n) {N : Bool → Phase → ℕ}
    (h : Total metrics net.wire N) (k : Fin n) (ψ : Phase) (msg : MpcAuxMessage X) :
    Total (Function.update metrics k ((metrics k).countSent ψ msg.msgType))
      (net.publish k (some (.protocol ψ msg))).wire
      (addOne N (msg.msgType = "broadcast") ψ) := by
  intro φ
  obtain ⟨hsent, hkinds⟩ := h φ
  constructor
  · have hsum := sum_update_metrics metrics k ((metrics k).countSent ψ msg.msgType)
      fun m => m.sent φ
    rw [MessageMetrics.sent_countSent] at hsum
    simp only [addOne]
    by_cases hφ : ψ = φ <;> by_cases htype : msg.msgType = "broadcast" <;>
      simp only [hφ, htype, if_true, if_false, and_self, and_true, and_false,
        decide_true, decide_false, Bool.true_eq_false, Bool.false_eq_true] at hsum ⊢ <;>
      omega
  · intro b
    have hsum := sum_update_metrics metrics k ((metrics k).countSent ψ msg.msgType)
      fun m => m.ofKind b φ
    have hkind := hkinds b
    have hpos := k.pos
    rw [MessageMetrics.ofKind_countSent] at hsum
    rw [Net.publish, Option.toList_some, List.flatMap_singleton, List.countP_append,
      countP_packets, addOne, Nat.mul_add]
    by_cases hc : ψ = φ ∧ decide (msg.msgType = "broadcast") = b
    · have hsome : Gossip.kind (.protocol ψ msg : Gossip X) = some (φ, b) := by
        rw [Gossip.kind, hc.1, hc.2]
      rw [if_pos hc] at hsum
      rw [if_pos hsome, if_pos hc]
      omega
    · have hsome : ¬ Gossip.kind (.protocol ψ msg : Gossip X) = some (φ, b) := by
        intro he
        obtain ⟨rfl, rfl⟩ := Prod.ext_iff.1 (Option.some.inj he)
        exact hc ⟨rfl, rfl⟩
      rw [if_neg hc] at hsum
      rw [if_neg hsome, if_neg hc]
      omega

/-- A packet that is taken from the wire is no longer in flight. -/
theorem countP_eraseIdx {wire : List (Packet X n)} {i : ℕ} {p : Packet X n} (hp : wire[i]? = some p)
    (φ : Phase) (b : Bool) :
    (wire.eraseIdx i).countP (fun q => q.content.kind = some (φ, b)) +
        (if p.content.kind = some (φ, b) then 1 else 0) =
      wire.countP (fun q => q.content.kind = some (φ, b)) := by
  obtain ⟨hi, rfl⟩ := List.getElem?_eq_some_iff.1 hp
  have hperm := (List.getElem_cons_eraseIdx_perm hi).countP_eq
    (fun q : Packet X n => q.content.kind = some (φ, b))
  rw [List.countP_cons] at hperm
  simpa using hperm

/-- A protocol message that is received moves from the wire to the counters of its host. -/
theorem Total.receive {metrics : Fin n → MessageMetrics} {wire : List (Packet X n)}
    {N : Bool → Phase → ℕ} (h : Total metrics wire N) {i : ℕ} {source : X.PeerId} {dest : Fin n}
    {ψ : Phase} {msg : MpcAuxMessage X} (hp : wire[i]? = some ⟨source, dest, .protocol ψ msg⟩) :
    Total (Function.update metrics dest ((metrics dest).countReceived ψ msg.msgType))
      (wire.eraseIdx i) N := by
  intro φ
  obtain ⟨hsent, hkinds⟩ := h φ
  constructor
  · have hsum := sum_update_metrics metrics dest ((metrics dest).countReceived ψ msg.msgType)
      fun m => m.sent φ
    rw [MessageMetrics.sent_countReceived] at hsum
    omega
  · intro b
    have hsum := sum_update_metrics metrics dest ((metrics dest).countReceived ψ msg.msgType)
      fun m => m.ofKind b φ
    have hwire := countP_eraseIdx hp φ b
    have hkind := hkinds b
    have hiff : Gossip.kind (.protocol ψ msg : Gossip X) = some (φ, b) ↔
        ψ = φ ∧ decide (msg.msgType = "broadcast") = b := by
      rw [Gossip.kind, Option.some.injEq, Prod.mk.injEq]
    rw [MessageMetrics.ofKind_countReceived] at hsum
    simp only [hiff] at hwire
    omega

/-- Any other packet that is delivered changes no count. -/
theorem Total.erase {metrics : Fin n → MessageMetrics} {wire : List (Packet X n)}
    {N : Bool → Phase → ℕ} (h : Total metrics wire N) {i : ℕ} {p : Packet X n}
    (hp : wire[i]? = some p) (hkind : p.content.kind = none) :
    Total metrics (wire.eraseIdx i) N := by
  intro φ
  refine ⟨(h φ).1, fun b => ?_⟩
  have hwire := countP_eraseIdx hp φ b
  rw [if_neg (by simp [hkind])] at hwire
  rw [← (h φ).2 b, ← hwire, Nat.add_zero]

/-- The invariant of the counters, with the number of messages of each kind that were published. -/
structure Balanced (s : Metered X n) : Prop where
  addressed : s.net.Addressed
  queue : ∀ k g, .broadcast g ∈ (s.net.hosts k).queue → g.isProtocol = false
  each : ∀ k, (s.metrics k).Balanced
  total : ∃ N, Total s.metrics s.net.wire N

variable {s t : Metered X n}

/-- What the processing of a command publishes, and what it counts. -/
theorem Balanced.count_process (h : s.Balanced) {k : Fin n} {c : NetworkCommand X}
    {cs : List (NetworkCommand X)} (hqueue : (s.net.hosts k).queue = c :: cs) (published : Bool) :
    (∃ φ msg, (if published then c.gossip (s.net.id k) else none) = some (.protocol φ msg) ∧
      s.count (.process k published) =
        Function.update s.metrics k ((s.metrics k).countSent φ msg.msgType)) ∨
    ((∀ g ∈ if published then c.gossip (s.net.id k) else none, g.kind = none) ∧
      s.count (.process k published) = s.metrics) := by
  rw [count, hqueue]
  cases c with
  | broadcast g =>
    have hg : g.kind = none := Gossip.kind_eq_none (h.queue k g (hqueue ▸ List.mem_cons_self))
    exact .inr ⟨by cases published <;> simp [NetworkCommand.gossip, hg], rfl⟩
  | send φ out =>
    cases hw : wrapOutgoing (s.net.id k) φ out with
    | none => exact .inr ⟨by cases published <;> simp [NetworkCommand.gossip, hw], by simp [hw]⟩
    | some msg =>
      cases published with
      | false => exact .inr ⟨by simp, by simp [hw]⟩
      | true => exact .inl ⟨φ, msg, by simp [NetworkCommand.gossip, hw], by simp [hw]⟩

/-- What the delivery of a packet counts. -/
theorem Balanced.count_deliver (h : s.Balanced) {i : ℕ} {p : Packet X n}
    (hp : s.net.wire[i]? = some p) (published : Bool) (now : UInt64) :
    (∃ φ msg, p.content = .protocol φ msg ∧ s.count (.deliver i published now) =
      Function.update s.metrics p.dest ((s.metrics p.dest).countReceived φ msg.msgType)) ∨
    (p.content.kind = none ∧ s.count (.deliver i published now) = s.metrics) := by
  have hsource := h.addressed.wire p (List.mem_of_getElem? hp)
  obtain ⟨source, dest, content⟩ := p
  rw [count, hp]
  cases content with
  | protocol φ msg => exact .inl ⟨φ, msg, rfl, if_neg hsource⟩
  | assignment | coordination | other => exact .inr ⟨rfl, rfl⟩

theorem Balanced.each_update (h : s.Balanced) (k : Fin n) {m : MessageMetrics} (hm : m.Balanced)
    (i : Fin n) : (Function.update s.metrics k m i).Balanced := by
  rw [Function.update_apply]
  split_ifs
  · exact hm
  · exact h.each i

theorem Balanced.step (h : s.Balanced) {l : NetLabel X n} (hhand : l.byHand = false)
    (hl : s.step l = some t) : t.Balanced := by
  obtain ⟨net, hnet, rfl⟩ := Option.map_eq_some_iff.1 hl
  have haddressed : net.Addressed := h.addressed.step (l := .net l) hnet
  obtain ⟨N, htotal⟩ := h.total
  cases l with
  | act k a =>
    obtain ⟨r, hr, rfl⟩ := Net.step_act_eq_some.1 hnet
    refine ⟨haddressed, fun i g hg => ?_, h.each, N, htotal⟩
    rw [Net.hosts_setHost] at hg
    split_ifs at hg with hi
    · subst hi
      rcases List.mem_append.1 hg with hg | hg
      · exact h.queue i g hg
      · exact Node.act_broadcast hr hhand hg
    · exact h.queue i g hg
  | process k published =>
    obtain ⟨c, cs, hqueue, rfl⟩ := Net.step_process_eq_some.1 hnet
    have hcommands : ∀ i g, .broadcast g ∈ (((s.net.setHost k
        { s.net.hosts k with queue := cs }).publish k
          (if published then c.gossip (s.net.id k) else none)).hosts i).queue →
        g.isProtocol = false := by
      intro i g hg
      rw [Net.hosts_publish, Net.hosts_setHost] at hg
      split_ifs at hg with hi
      · exact h.queue k g (hqueue ▸ List.mem_cons_of_mem _ hg)
      · exact h.queue i g hg
    rcases h.count_process hqueue published with ⟨φ, msg, hg, hcount⟩ | ⟨hg, hcount⟩
    · refine ⟨haddressed, hcommands, ?_, addOne N (msg.msgType = "broadcast") φ, ?_⟩
      · rw [hcount]
        exact h.each_update _ ((h.each k).countSent φ msg.msgType)
      · rw [hcount, hg]
        exact Total.publish (s.net.setHost k { s.net.hosts k with queue := cs }) htotal k φ msg
    · refine ⟨haddressed, hcommands, hcount ▸ h.each, N, ?_⟩
      rw [hcount]
      exact Total.publish_other (s.net.setHost k { s.net.hosts k with queue := cs }) htotal hg
  | deliver i published now =>
    obtain ⟨p, hp, rfl⟩ := Net.step_deliver_eq_some.1 hnet
    have hcommands : ∀ i' g, .broadcast g ∈ ((s.net.deliver i p published now).hosts i').queue →
        g.isProtocol = false := by
      intro i' g hg
      rw [Net.deliver, Net.hosts_publish, Net.hosts_setHost] at hg
      split_ifs at hg with hi
      · exact h.queue p.dest g hg
      · exact h.queue i' g hg
    have hanswer : ∀ g ∈ ((s.net.hosts p.dest).effect p.source published now p.content).published,
        g.kind = none := by
      intro g hg
      obtain ⟨msg, rfl⟩ := Node.onMessage_published hg
      rfl
    rcases h.count_deliver hp published now with ⟨φ, msg, hcontent, hcount⟩ | ⟨hkind, hcount⟩
    · refine ⟨haddressed, hcommands, ?_, N, ?_⟩
      · rw [hcount]
        exact h.each_update _ ((h.each p.dest).countReceived φ msg.msgType)
      · rw [hcount, Net.deliver]
        have hp' : s.net.wire[i]? = some ⟨p.source, p.dest, .protocol φ msg⟩ := by
          rw [hp, ← hcontent]
        exact Total.publish_other _ (htotal.receive hp') hanswer
    · refine ⟨haddressed, hcommands, hcount ▸ h.each, N, ?_⟩
      rw [hcount, Net.deliver]
      exact Total.publish_other _ (htotal.erase hp hkind) hanswer

/-- At the start nothing is counted, and nothing is in flight. -/
theorem Balanced.of_init (h : (meteredMachine X n).init s) : s.Balanced := by
  obtain ⟨net, metrics⟩ := s
  obtain ⟨⟨ids, hinj, rfl⟩, rfl⟩ := h
  refine ⟨⟨hinj, fun p hp => by cases hp⟩, fun _ _ hg => (by cases hg), fun _ _ => rfl,
    fun _ _ => 0, fun φ => ⟨Finset.sum_const_zero, fun b => ?_⟩⟩
  cases b <;> simp [MessageMetrics.ofKind, MessageMetrics.new]

/-- The invariant of the counters, over a run without protocol messages put together by hand. -/
theorem Balanced.of_run (h₀ : (meteredMachine X n).init s) {ls : List (NetLabel X n)}
    (hhand : ∀ l ∈ ls, l.byHand = false) (hr : (meteredMachine X n).run s ls = some t) :
    t.Balanced :=
  Machine.run_preserves_of_forall (M := meteredMachine X n) (fun _ _ _ h hG hl => h.step hG hl)
    (Balanced.of_init h₀) hhand hr

/-- A protocol message in flight is a broadcast or is for one party. -/
theorem countP_phase (wire : List (Packet X n)) (φ : Phase) :
    wire.countP (fun p => p.content.phase = some φ) =
      wire.countP (fun p => p.content.kind = some (φ, true)) +
        wire.countP (fun p => p.content.kind = some (φ, false)) := by
  induction wire with
  | nil => rfl
  | cons p wire ih =>
    simp only [List.countP_cons, ih]
    cases p.content with
    | protocol ψ msg =>
      by_cases hψ : ψ = φ <;> by_cases htype : msg.msgType = "broadcast" <;>
        simp [Gossip.phase, Gossip.kind, hψ, htype] <;> omega
    | assignment | coordination | other => simp [Gossip.phase, Gossip.kind]

end Metered

/-- At every host the two counters of the kinds add up to the two counters of the directions. Over
the whole network every message of a protocol that was published is counted once as sent, and once
as received by each host but its own, to which it may still be on the way; so every broadcast, and
every message for one party too, is counted `n` times in the counter of its kind. -/
theorem message_counters_balance {s t : Metered X n} {ls : List (NetLabel X n)}
    (h₀ : (meteredMachine X n).init s) (hhand : ∀ l ∈ ls, l.byHand = false)
    (hr : (meteredMachine X n).run s ls = some t) (φ : Phase) :
    (∀ k, (t.metrics k).broadcast φ + (t.metrics k).p2p φ =
      (t.metrics k).sent φ + (t.metrics k).received φ) ∧
    ∑ k, (t.metrics k).sent φ + ∑ k, (t.metrics k).received φ +
      t.net.wire.countP (fun p => p.content.phase = some φ) = n * ∑ k, (t.metrics k).sent φ ∧
    ∃ broadcasts p2ps, ∑ k, (t.metrics k).sent φ = broadcasts + p2ps ∧
      ∑ k, (t.metrics k).broadcast φ +
        t.net.wire.countP (fun p => p.content.kind = some (φ, true)) = n * broadcasts ∧
      ∑ k, (t.metrics k).p2p φ +
        t.net.wire.countP (fun p => p.content.kind = some (φ, false)) = n * p2ps := by
  have h := Metered.Balanced.of_run h₀ hhand hr
  obtain ⟨N, hN⟩ := h.total
  obtain ⟨hsent, hkinds⟩ := hN φ
  have hbroadcast := hkinds true
  have hp2p := hkinds false
  simp only [MessageMetrics.ofKind] at hbroadcast hp2p
  refine ⟨fun k => h.each k φ, ?_, N true φ, N false φ, hsent, hbroadcast, hp2p⟩
  have hsum : ∑ k, (t.metrics k).broadcast φ + ∑ k, (t.metrics k).p2p φ =
      ∑ k, (t.metrics k).sent φ + ∑ k, (t.metrics k).received φ := by
    rw [← Finset.sum_add_distrib, ← Finset.sum_add_distrib]
    exact Finset.sum_congr rfl fun k _ => h.each k φ
  rw [Metered.countP_phase, hsent, Nat.mul_add, ← hbroadcast, ← hp2p, ← hsent]
  omega

namespace MeteredRun

open ThreeNodes

/-- In an aux generation `b` has sent a broadcast, then a message for `c` alone, which `a` has
received. -/
def labels : List (NetLabel .plain 3) :=
  DeliveryRun.inOrder ++ [.act b (.emit .aux ⟨.oneParty 2, ([2] : List UInt8)⟩), .process b true,
    .deliver 0 true 5, .deliver 0 true 5]

end MeteredRun

open ThreeNodes

/-- Both messages are counted, one of them not yet by `c`. -/
theorem three_nodes_count : ∃ t, (meteredMachine .plain 3).run ⟨start, fun _ => .new⟩
      MeteredRun.labels = some t ∧
    ∑ k, (t.metrics k).sent .aux + ∑ k, (t.metrics k).received .aux +
      t.net.wire.countP (fun p => p.content.phase = some .aux) =
        3 * ∑ k, (t.metrics k).sent .aux := by
  have hhand : ∀ l ∈ MeteredRun.labels, l.byHand = false := by
    intro l hl
    have hall : MeteredRun.labels.all (fun l => !l.byHand) = true := rfl
    simpa using List.all_eq_true.1 hall l hl
  obtain ⟨t, ht⟩ : ∃ t, (meteredMachine .plain 3).run ⟨start, fun _ => .new⟩ MeteredRun.labels =
      some t := ⟨_, rfl⟩
  exact ⟨t, ht, (message_counters_balance ⟨⟨ids, ids_injective, rfl⟩, rfl⟩ hhand ht .aux).2.1⟩

end P2pMpc
