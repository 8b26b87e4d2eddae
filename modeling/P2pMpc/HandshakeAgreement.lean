import P2pMpc.HandshakeNetwork
import P2pMpc.PhaseMonotone
import P2pMpc.RpcGuards

/-!
# The handshake agrees

What the round of a handshake comes to, from the assignment on: no orchestrator is replaced, all of
them agree, the coordinator's comes last, and its aux generation finds every other one idle. The
last holds because any message the coordinator broadcasts takes its own orchestrator out of `Idle`,
to which only a replacement leads back: as long as the coordinator is idle, the network is dormant.
-/

namespace P2pMpc

open StateMachine MPCOrchestrator

variable {X : Platform} {n : ℕ}

/-! ### Idle orchestrators -/

/-- The orchestrator of the node, if there is one, is idle. -/
def Node.Idle (m : Node X) : Prop :=
  ∀ inst, m.mpcOrchestrator = some inst → inst.orch.state = .idle

/-- A message that is let in leaves `Idle`. -/
theorem not_idle_of_enters {o : MPCOrchestrator X} {msg : CoordinationMessage X} (h : o.Enters msg)
    (chan : ChannelId) (sender : X.PeerId) :
    (o.handleCoordinationMessage chan sender msg).orch.state ≠ .idle := by
  cases msg with
  | initiateAux eid ps pa timestamp =>
    obtain ⟨i, ts, hc⟩ := h
    show (o.handleInitiateAux chan sender eid pa timestamp).orch.state ≠ .idle
    rcases handleInitiateAux_cases o chan sender eid pa timestamp with ⟨_, hno, -⟩ | ⟨_, _, -, he⟩
    · exact absurd hc (hno i ts)
    · rw [he]
      rintro ⟨⟩
  | initiateKeygen eid t total timestamp =>
    obtain ⟨i, ts, hc⟩ := h
    show (o.handleInitiateKeygen chan sender eid t total timestamp).orch.state ≠ .idle
    rcases handleInitiateKeygen_cases o chan sender eid t total timestamp with
      ⟨_, hno, -⟩ | ⟨_, _, -, ⟨-, he⟩ | ⟨_, -, he⟩⟩
    · exact absurd hc (hno i ts)
    · rw [he]
      rintro ⟨⟩
    · rw [he]
      rintro ⟨⟩
  | initiateSigning eid m signers timestamp =>
    obtain ⟨i, ts, hc⟩ := h
    show (o.handleInitiateSigning chan sender eid m signers timestamp).orch.state ≠ .idle
    rcases handleInitiateSigning_cases o chan sender eid m signers timestamp with
      ⟨_, hno, -⟩ | ⟨_, _, -, ⟨-, he⟩ | ⟨-, -, he⟩ | ⟨-, _, _, -, -, he⟩⟩
    · exact absurd hc (hno i ts)
    · rw [he]
      rintro ⟨⟩
    · rw [he]
      rintro ⟨⟩
    · rw [he]
      rintro ⟨⟩
  | auxCompleted | keygenCompleted | signingCompleted | protocolFailed => exact h.elim

namespace Node

variable {m m' : Node X}

/-- What a call broadcasts passes the checks of its own handler. -/
theorem initiateCall_enters (hm : m.WellFormed) {inst : Instance X}
    (hinst : m.mpcOrchestrator = some inst) {call : InitiateCall} {msg : CoordinationMessage X}
    (hb : (m.initiateCall call).broadcast = some msg) : inst.orch.Enters msg := by
  obtain ⟨i, hi⟩ := (hm.slot inst hinst).localPartyIndex
  cases call with
  | auxGen timestamp =>
    obtain ⟨inst', _, ts, hinst', hts, hs, rfl⟩ := initiateAuxGen_broadcast hb
    obtain rfl := Option.some.inj (hinst.symm.trans hinst')
    exact ⟨i, ts, hts, hs, hi⟩
  | keygen t timestamp =>
    obtain ⟨inst', _, ts, hinst', hts, hr, h0, hle, rfl⟩ := initiateKeygen_broadcast hb
    obtain rfl := Option.some.inj (hinst.symm.trans hinst')
    exact ⟨i, ts, hts, hr, h0, hle, hi⟩
  | signing message signers timestamp =>
    obtain ⟨inst', _, ts, hinst', hts, hr, rfl⟩ := initiateSigning_broadcast hb
    obtain rfl := Option.some.inj (hinst.symm.trans hinst')
    exact ⟨i, ts, hts, hr, hi⟩

/-- A call that broadcasts leaves its own node in a phase. -/
theorem not_idle_of_broadcast (hm : m.WellFormed) {call : InitiateCall}
    (hidle : (m.initiateCall call).node.Idle) : (m.initiateCall call).broadcast = none := by
  rcases m.initiateCall_handled call with ⟨hb, -⟩ | ⟨inst, msg, hinst, hb, he⟩
  · exact hb
  · rw [he] at hidle
    exact absurd (hidle _ rfl) (not_idle_of_enters (initiateCall_enters hm hinst hb) _ _)

/-- Working does not lead back to `Idle`. -/
theorem Works.idle_before {l : NodeLabel X} (h : m.Works l m'.mpcOrchestrator)
    (hidle : m'.Idle) : m.Idle := by
  unfold Idle at hidle
  generalize m'.mpcOrchestrator = slot at h hidle
  intro inst₀ hinst₀
  cases h with
  | keep => exact hidle inst₀ hinst₀
  | coordinate inst p msg hinst hl =>
    obtain rfl := Option.some.inj (hinst.symm.trans hinst₀)
    have hst := hidle _ rfl
    by_cases hmsg : inst.orch.Enters msg
    · exact absurd hst (not_idle_of_enters hmsg _ _)
    · have horch := (handle_of_not_enters hmsg m.nextChannel p).1
      have hst : (inst.orch.handleCoordinationMessage m.nextChannel p msg).orch.state = .idle := hst
      rw [horch] at hst
      exact hst
  | task inst l' c hinst hl hc =>
    obtain rfl := Option.some.inj (hinst.symm.trans hinst₀)
    have hst := hidle _ rfl
    rcases hl with ⟨i, r, rfl⟩ | ⟨i, rfl⟩
    · obtain ⟨_, _, -, -, rfl⟩ := Config.step_finish_eq_some.1 hc
      exact hst
    · obtain ⟨_, _, _, -, ha, rfl⟩ := Config.step_advance_eq_some.1 hc
      rcases Task.advance_cases ha with ⟨-, -, hrank⟩ | ⟨hsame, -⟩
      · -- a completed phase has a higher rank than `Idle`
        rw [show _ = ProtocolState.idle from hst] at hrank
        exact absurd hrank (Nat.not_lt_zero _)
      · rw [← hsame]
        exact hst

/-- Only the replacement of an orchestrator leads back to `Idle`. -/
theorem idle_before {l : NodeLabel X} (hl : m.step l = some m') (honce : m'.retired = [])
    (hidle : m'.Idle) : m.Idle := by
  -- an orchestrator that is replaced goes to `retired`
  have hinstall : ∀ m₀ : Node X, ∀ A, m₀.mpcOrchestrator = m.mpcOrchestrator →
      (m₀.install A).retired = [] → m.Idle := by
    intro m₀ A hslot hnil inst hinst
    have hmem : inst ∈ (m₀.install A).retired :=
      List.mem_append_right _ (by rw [hslot, hinst]; exact List.mem_singleton_self _)
    rw [hnil] at hmem
    cases hmem
  rcases step_cases hl with ⟨now, -, rfl⟩ | ⟨_, published, now, msg, -, -, rfl⟩ | ⟨-, -, -, hw⟩
  · exact hidle
  · cases msg with
    | request coordinatorId A sid =>
      rcases m.handleRequest_cases published now coordinatorId A sid with
        ⟨-, he⟩ | ⟨i, -, ⟨-, he⟩ | ⟨-, -, he⟩⟩ <;> rw [he] at hidle honce
      · exact hidle
      · exact hidle
      · exact hinstall _ A rfl honce
    | acceptance p i sid =>
      rcases m.handleAcceptance_cases published now p i sid with
        ⟨-, he⟩ | ⟨s, -, ⟨-, he⟩ | ⟨-, he⟩⟩ <;> rw [he] at hidle honce
      · exact hidle
      · exact hidle
      · exact hinstall (m.record sid (s.accept p)) s.assignments rfl honce
  · exact hw.idle_before hidle

/-- Without a coordination message an idle orchestrator stays idle. -/
theorem idle_after (hm : m.WellFormed) {l : NodeLabel X} (hl : m.step l = some m')
    (hno : m.handled l = none) (hidle : m.Idle) : m'.Idle := by
  obtain ⟨-, -, hslot⟩ := step_slot hl
  unfold Idle
  generalize m'.mpcOrchestrator = slot at hslot
  have hnotask : ∀ inst, m.mpcOrchestrator = some inst → inst.tasks = [] := by
    intro inst hinst
    have hshaped : PhaseShape inst.orch.state inst.tasks none inst.orch.auxInfo
      inst.orch.keyShare := (hm.slot inst hinst).shaped
    rw [hidle inst hinst] at hshaped
    exact hshaped.of_idle.1
  cases hslot with
  | keep => exact hidle
  | install A =>
    rintro _ ⟨⟩
    rfl
  | coordinate inst p msg hinst hl => simp [hno] at hl
  | finish inst i r c hinst hc =>
    obtain ⟨_, _, ht, -, -⟩ := Config.step_finish_eq_some.1 hc
    simp [hnotask inst hinst] at ht
  | advance inst i c hinst hc =>
    obtain ⟨_, _, _, ht, -, -⟩ := Config.step_advance_eq_some.1 hc
    simp [hnotask inst hinst] at ht

end Node

/-! ### Dormant networks -/

def NetworkCommand.isCoordination : NetworkCommand X → Bool
  | .broadcast g => g.isCoordination
  | .send _ _ => false

theorem NetworkCommand.isCoordination_gossip {c : NetworkCommand X} (h : c.isCoordination = false)
    {id : X.PeerId} {g : Gossip X} (hg : c.gossip id = some g) : g.isCoordination = false := by
  cases c with
  | broadcast g' =>
    cases hg
    exact h
  | send φ out =>
    obtain ⟨_, -, rfl⟩ := Option.map_eq_some_iff.1 hg
    rfl

/-- The commands of an action that abides hold a coordination message only if it is handled. -/
theorem Node.act_commands {m : Node X} {a : Action X} {r : Node X × List (NetworkCommand X)}
    (h : m.act a = some r) {p : Prop} (ha : a.Abides p) (hno : m.handled (.act a) = none) :
    ∀ c ∈ r.2, c.isCoordination = false := by
  intro c hc
  rcases act_sends h with ⟨φ, out, -, -, rfl⟩ | ⟨g, rfl, rfl⟩ | ⟨now, rfl, -⟩ | ⟨p, msg, hmsg, -⟩ |
      ⟨-, he⟩
  · rw [List.mem_singleton.1 hc]
    rfl
  · rw [List.mem_singleton.1 hc]
    exact ha.2
  · exact ha.elim
  · rw [hno] at hmsg
    cases hmsg
  · rw [he] at hc
    cases hc

/-- What an action makes its node handle is a message that a call broadcasts, and the call leaves
the node in a phase. -/
theorem Node.handled_act_eq_none {m m' : Node X} (hm : m.WellFormed) {a : Action X}
    (hl : m.step (.act a) = some m') (hidle : m'.Idle) : m.handled (.act a) = none := by
  have hcall : ∀ call : InitiateCall, m' = (m.initiateCall call).node →
      (m.initiateCall call).broadcast.map (m.id, ·) = none := by
    rintro call rfl
    rw [not_idle_of_broadcast hm hidle]
    rfl
  cases a with
  | initiateAuxGen timestamp => exact hcall (.auxGen timestamp) (Option.some.inj hl).symm
  | initiateKeygen t timestamp => exact hcall (.keygen t timestamp) (Option.some.inj hl).symm
  | initiateSigning message signers timestamp =>
    exact hcall (.signing message signers timestamp) (Option.some.inj hl).symm
  | _ => rfl

namespace Net

/-- Every orchestrator is idle, and no coordination message is on its way. -/
structure Dormant (s : Net X n) : Prop where
  queue : ∀ k, ∀ c ∈ (s.hosts k).queue, c.isCoordination = false
  wire : ∀ p ∈ s.wire, p.content.isCoordination = false
  idle : ∀ k, (s.hosts k).node.Idle

variable {s t : Net X n} {c : Fin n}

theorem Dormant.publish (h : s.Dormant) {k : Fin n} {g : Option (Gossip X)}
    (hg : ∀ g', g = some g' → g'.isCoordination = false) : (s.publish k g).Dormant := by
  refine ⟨h.queue, fun p hp => ?_, h.idle⟩
  rcases mem_publish.1 hp with hp | ⟨-, -, hcontent⟩
  · exact h.wire p hp
  · exact hg p.content hcontent

theorem Dormant.setHost (h : s.Dormant) {k : Fin n} {host : Host X}
    (hqueue : ∀ c ∈ host.queue, c.isCoordination = false) (hidle : host.node.Idle) :
    (s.setHost k host).Dormant := by
  refine ⟨?_, h.wire, ?_⟩ <;> intro i <;> rw [hosts_setHost] <;> split_ifs
  · exact hqueue
  · exact h.queue i
  · exact hidle
  · exact h.idle i

theorem Dormant.act (h : s.Dormant) (hwf : ∀ k, (s.hosts k).node.WellFormed) {k : Fin n}
    {a : Action X} (ha : a.Abides (k = c)) (hs : s.step (.act k a) = some t)
    (hidle : (t.hosts c).node.Idle) : t.Dormant := by
  obtain ⟨r, hr, rfl⟩ := step_act_eq_some.1 hs
  have hnode : (s.hosts k).node.step (.act a) = some r.1 := by simp [Node.step, hr]
  -- only the coordinator makes a call, and a call that broadcasts would have moved it
  have hno : (s.hosts k).node.handled (.act a) = none := by
    by_cases hk : k = c
    · subst hk
      rw [hosts_setHost, if_pos rfl] at hidle
      exact Node.handled_act_eq_none (hwf k) hnode hidle
    · cases a <;> first | rfl | exact absurd ha hk
  refine h.setHost ?_ (Node.idle_after (hwf k) hnode hno (h.idle k))
  intro cmd hcmd
  rcases List.mem_append.1 hcmd with hcmd | hcmd
  · exact h.queue k cmd hcmd
  · exact Node.act_commands hr ha hno cmd hcmd

theorem Dormant.process (h : s.Dormant) {k : Fin n} {published : Bool}
    (hs : s.step (.process k published) = some t) : t.Dormant := by
  obtain ⟨cmd, cs, hq, rfl⟩ := step_process_eq_some.1 hs
  have hqueue := h.queue k
  rw [hq] at hqueue
  have hset : (s.setHost k { s.hosts k with queue := cs }).Dormant :=
    h.setHost (fun c hc => hqueue c (List.mem_cons_of_mem _ hc)) (h.idle k)
  refine hset.publish fun g hg => ?_
  split_ifs at hg
  exact NetworkCommand.isCoordination_gossip (hqueue cmd List.mem_cons_self) hg

theorem Dormant.deliver (h : s.Dormant) (hwf : ∀ k, (s.hosts k).node.WellFormed) {i : ℕ}
    {published : Bool} {now : UInt64} (hs : s.step (.deliver i published now) = some t) :
    t.Dormant := by
  obtain ⟨p, hp, rfl⟩ := step_deliver_eq_some.1 hs
  have hcontent := h.wire p (List.mem_of_getElem? hp)
  have herase : Dormant { s with wire := s.wire.eraseIdx i } :=
    ⟨h.queue, fun q hq => h.wire q ((List.eraseIdx_sublist _ _).subset hq), h.idle⟩
  have hno : (s.hosts p.dest).node.handled (.receive (some p.source) published now p.content) =
      none := by
    cases hg : p.content <;> first | rfl | (rw [hg] at hcontent; cases hcontent)
  have hafter := Node.idle_after (hwf p.dest)
    (l := .receive (some p.source) published now p.content) rfl hno (h.idle p.dest)
  have hset : Dormant (Net.setHost { s with wire := s.wire.eraseIdx i } p.dest
      ((s.hosts p.dest).receive p.source published now p.content)) :=
    herase.setHost (h.queue p.dest) hafter
  refine hset.publish fun g hg => ?_
  obtain ⟨msg, rfl⟩ := Node.onMessage_published hg
  rfl

/-- As long as the coordinator is idle, every step that abides keeps the network dormant. -/
theorem Dormant.step (h : s.Dormant) (hwf : ∀ k, (s.hosts k).node.WellFormed)
    {l : HandshakeLabel X n} (hl : l.Abides c) (hs : s.handshakeStep l = some t)
    (hidle : (t.hosts c).node.Idle) : t.Dormant := by
  cases l with
  | net l =>
    cases l with
    | act k a => exact h.act hwf hl hs hidle
    | process k published => exact h.process hs
    | deliver i published now => exact h.deliver hwf hs
  | rehashSession k sid A =>
    obtain ⟨session, -, -, rfl⟩ := rehashSession_eq_some hs
    exact h.setHost (h.queue k) (h.idle k)
  | rehashMessage i A =>
    obtain ⟨_, _, _, _, _, -, -, rfl⟩ := rehashMessage_eq_some hs
    refine ⟨h.queue, fun q hq => ?_, h.idle⟩
    rcases List.mem_or_eq_of_mem_set hq with hq | rfl
    · exact h.wire q hq
    · rfl

end Net

/-! ### The whole run -/

namespace Net

variable {s t : Net X n} {c : Fin n}

/-- In a run from the start, the host `c` assigns indices in the state `s`, and this is the only
assignment up to the state `t`. -/
def HandshakeRun (c : Fin n) (s t : Net X n) : Prop :=
  ∃ s₀ before now s₁ after, (handshakeMachine X n).init s₀ ∧
    (∀ l ∈ before, HandshakeLabel.Abides c l) ∧ (handshakeMachine X n).run s₀ before = some s ∧
    s.step (.act c (.assignPeerIndices now)) = some s₁ ∧
    (∀ l ∈ after, HandshakeLabel.Abides c l) ∧ (handshakeMachine X n).run s₁ after = some t

/-- What holds before the assignment. -/
structure Before (s : Net X n) : Prop where
  unassigned : s.exchange.Unassigned
  dormant : s.Dormant
  ids_injective : Function.Injective s.id

/-- What holds after the assignment. -/
structure After (r : Round X n) (s : Net X n) : Prop where
  inRound : s.exchange.InRound r
  dormant : (s.hosts r.coordinator).node.Idle → s.Dormant

theorem handshakeStep_id {l : HandshakeLabel X n} (hs : s.handshakeStep l = some t) :
    t.id = s.id := by
  cases l with
  | net l => exact step_id hs
  | rehashSession k sid A =>
    obtain ⟨session, -, -, rfl⟩ := rehashSession_eq_some hs
    exact id_setHost rfl
  | rehashMessage i A =>
    obtain ⟨_, _, _, _, _, -, -, rfl⟩ := rehashMessage_eq_some hs
    rfl

theorem Before.of_init (h : (handshakeMachine X n).init s) : s.Before := by
  obtain ⟨ids, hids, rfl⟩ := h
  refine ⟨⟨?_, ?_, rfl, ?_, ?_, ?_⟩, ⟨?_, ?_, ?_⟩, hids⟩
  · intro k
    show (ids k :: []).Nodup
    exact List.nodup_singleton _
  · exact fun _ => rfl
  · exact fun _ => rfl
  · exact fun _ => rfl
  · exact fun _ => rfl
  · intro k c hc
    cases hc
  · intro p hp
    cases hp
  · rintro k _ ⟨⟩

theorem Before.wellFormed (h : s.Before) (k : Fin n) : (s.hosts k).node.WellFormed := by
  have hsessions : (s.hosts k).node.sessions = ∅ := h.unassigned.sessions k
  have hslot : (s.hosts k).node.mpcOrchestrator = none := h.unassigned.slot k
  refine ⟨fun sid session hs => ?_, fun inst hinst => ?_⟩
  · simp [hsessions] at hs
  · simp [hslot] at hinst

theorem Before.step (h : s.Before) {l : HandshakeLabel X n} (hl : l.Abides c)
    (hs : s.handshakeStep l = some t) : t.Before := by
  have hunassigned := h.unassigned.step (step_exchange hl hs)
  refine ⟨hunassigned, h.dormant.step h.wellFormed hl hs ?_, ?_⟩
  · intro inst hinst
    have hslot : (t.hosts c).node.mpcOrchestrator = none := hunassigned.slot c
    simp [hslot] at hinst
  · rw [handshakeStep_id hs]
    exact h.ids_injective

theorem After.of_assign (hX : X.ParsesPeers) (h : s.Before) {now : UInt64}
    (hs : s.step (.act c (.assignPeerIndices now)) = some t) :
    t.After (s.exchange.roundOf c now) := by
  constructor
  · rw [step_exchange_assign hs]
    exact .assign hX h.unassigned h.ids_injective c now
  · intro _
    cases hs
    refine h.dormant.setHost ?_ (h.dormant.idle c)
    intro cmd hcmd
    rcases List.mem_append.1 hcmd with hcmd | hcmd
    · exact h.dormant.queue c cmd hcmd
    · rw [List.mem_singleton.1 hcmd]
      rfl

theorem After.step (hX : X.ParsesPeers) {r : Round X n} (hr : r.Valid) (h : s.After r)
    {l : HandshakeLabel X n} (hl : l.Abides r.coordinator) (hs : s.handshakeStep l = some t) :
    t.After r := by
  have hround := h.inRound.step hX hr (step_exchange hl hs)
  refine ⟨hround, fun hidle => ?_⟩
  -- the coordinator was idle before: its orchestrator has not been replaced
  have hbefore : (s.hosts r.coordinator).node.Idle := by
    have honce : (t.hosts r.coordinator).node.retired = [] := hround.ofRound.once r.coordinator
    cases l with
    | net l =>
      rcases step_node hs r.coordinator with he | ⟨nl, hnl⟩
      · rw [← he]
        exact hidle
      · exact Node.idle_before hnl honce hidle
    | rehashSession k sid A =>
      obtain ⟨session, -, -, rfl⟩ := rehashSession_eq_some hs
      rw [hosts_setHost] at hidle
      split_ifs at hidle with hk
      · rw [hk]
        exact hidle
      · exact hidle
    | rehashMessage i A =>
      obtain ⟨_, _, _, _, _, -, -, rfl⟩ := rehashMessage_eq_some hs
      exact hidle
  exact (h.dormant hbefore).step h.inRound.ofRound.wellFormed hl hs hidle

/-- A run of the handshake ends in its round. -/
theorem HandshakeRun.after (hX : X.ParsesPeers) (h : HandshakeRun c s t) :
    ∃ r : Round X n, r.Valid ∧ r.coordinator = c ∧ r.peers = (s.hosts c).node.peerList ∧
      t.After r := by
  obtain ⟨s₀, before, now, s₁, after, hinit, hbefore, hrun, hassign, hafter, hrun'⟩ := h
  have hs : s.Before := Machine.run_preserves_of_forall (M := handshakeMachine X n)
    (fun _ _ _ h hl => h.step hl) (Before.of_init hinit) hbefore hrun
  have hr := Exchange.valid_roundOf hX hs.unassigned hs.ids_injective c now
  exact ⟨_, hr, rfl, rfl, Machine.run_preserves_of_forall (M := handshakeMachine X n)
    (fun _ _ _ h hl => h.step hX hr hl) (After.of_assign hX hs hassign) hafter hrun'⟩

/-- Every peer of a round in which the coordinator has counted all is a host that has installed. -/
theorem After.installed (hX : X.ParsesPeers) {r : Round X n} (h : t.After r)
    (hcounted : ∀ q ∈ r.peers, r.Counted (t.hosts r.coordinator).node q) {q : X.PeerId}
    (hq : q ∈ r.peers) :
    ∃ k, k ≠ r.coordinator ∧ t.id k = q ∧ (t.hosts k).node.mpcOrchestrator ≠ none := by
  obtain ⟨s, hs, hmem⟩ := hcounted q hq
  obtain ⟨k, hk, hinst, -, heq⟩ := (h.inRound.ofRound.sessions r.coordinator _ s hs).accepted _ hmem
  exact ⟨k, hk.1, (h.inRound.ofRound.ids k).trans (hX.injective heq).symm, hinst⟩

end Net

/-- From the assignment of the host `c` on, no host replaces its orchestrator; any two orchestrators
have the same participants and the same party assignments; if `c` has one, so has every other host
it has assigned an index; and what `initiate_aux_gen` of `c` broadcasts, it broadcasts when every
other assigned host has an idle one. -/
theorem handshake_agreement (hX : X.ParsesPeers) {c : Fin n} {s t : Net X n}
    (h : Net.HandshakeRun c s t) :
    (∀ k, (t.hosts k).node.retired = []) ∧
    (∀ i j inst inst', (t.hosts i).node.mpcOrchestrator = some inst →
      (t.hosts j).node.mpcOrchestrator = some inst' →
        inst.orch.participants = inst'.orch.participants ∧
        inst.orch.partyAssignments.entries.Perm inst'.orch.partyAssignments.entries) ∧
    ((t.hosts c).node.mpcOrchestrator ≠ none → ∀ p ∈ (s.hosts c).node.peerList,
      ∃ k, k ≠ c ∧ t.id k = p ∧ (t.hosts k).node.mpcOrchestrator ≠ none) ∧
    (∀ timestamp, ((t.hosts c).node.initiateAuxGen timestamp).broadcast ≠ none →
      ∀ p ∈ (s.hosts c).node.peerList, ∃ k inst, k ≠ c ∧ t.id k = p ∧
        (t.hosts k).node.mpcOrchestrator = some inst ∧ inst.orch.state = .idle) := by
  obtain ⟨r, hr, rfl, hpeers, ht⟩ := h.after hX
  have hlast : (t.hosts r.coordinator).node.mpcOrchestrator ≠ none → ∀ p ∈ r.peers,
      ∃ k, k ≠ r.coordinator ∧ t.id k = p ∧ (t.hosts k).node.mpcOrchestrator ≠ none :=
    fun hslot p hp => ht.installed hX (ht.inRound.counts.complete hslot) hp
  rw [← hpeers]
  refine ⟨ht.inRound.ofRound.once, ?_, hlast, ?_⟩
  · intro i j inst inst' hi hj
    obtain ⟨h1, h2⟩ := ht.inRound.ofRound.agreed i inst hi
    obtain ⟨h1', h2'⟩ := ht.inRound.ofRound.agreed j inst' hj
    exact ⟨h1.trans h1'.symm, h2.trans h2'.symm⟩
  · intro timestamp hb p hp
    unfold Node.initiateAuxGen at hb
    cases hinst : (t.hosts r.coordinator).node.mpcOrchestrator with
    | none => simp [hinst] at hb
    | some inst =>
      simp only [hinst] at hb
      split at hb
      · next hs =>
        have hidle : (t.hosts r.coordinator).node.Idle := by
          intro inst' hinst'
          rw [Option.some.inj (hinst'.symm.trans hinst)]
          exact hs
        obtain ⟨k, hk, hid, hslot⟩ := hlast (by simp [hinst]) p hp
        obtain ⟨inst', hinst'⟩ := Option.ne_none_iff_exists'.1 hslot
        exact ⟨k, inst', hk, hid, hinst', (ht.dormant hidle).idle k inst' hinst'⟩
      · exact absurd rfl hb

/-! ### Three nodes shake hands -/

namespace ThreeNodes

/-- The peers of `a` before it assigns. -/
def connected : List (HandshakeLabel .plain 3) :=
  [.net (.act a (.identify "b")), .net (.act a (.identify "c"))]

/-- `b` meets the assignments of the Request in another order than `c`; both accept, and `a` counts
them. -/
def accepted : List (HandshakeLabel .plain 3) :=
  [.net (.process a true), .rehashMessage 0 (.ofEntries [("b", 1), ("c", 2), ("a", 0)]),
    .net (.deliver 0 true 5), .net (.deliver 0 true 5), .net (.deliver 2 true 5),
    .net (.deliver 0 true 5)]

end ThreeNodes

open ThreeNodes

/-- When `a` starts the aux generation after that, `b` and `c` are idle. -/
theorem handshake_of_three : ∃ s t : Net .plain 3, Net.HandshakeRun a s t ∧ ∀ p ∈ ["b", "c"],
    ∃ k inst, k ≠ a ∧ t.id k = p ∧ (t.hosts k).node.mpcOrchestrator = some inst ∧
      inst.orch.state = .idle := by
  obtain ⟨s, s₁, t, hs, hassign, ht, hb, hpeers⟩ : ∃ s s₁ t : Net .plain 3,
      (handshakeMachine .plain 3).run start connected = some s ∧
      s.step (.act a (.assignPeerIndices 5)) = some s₁ ∧
      (handshakeMachine .plain 3).run s₁ accepted = some t ∧
      ((t.hosts a).node.initiateAuxGen ⟨0⟩).broadcast ≠ none ∧
      (s.hosts a).node.peerList = ["b", "c"] := ⟨_, _, _, rfl, rfl, rfl, by rintro ⟨⟩, rfl⟩
  have hrun : Net.HandshakeRun a s t := by
    refine ⟨start, connected, 5, s₁, accepted, ⟨ids, ids_injective, rfl⟩, ?_, hs, hassign, ?_, ht⟩
    · simp [connected, HandshakeLabel.Abides, Action.Abides]
    · simp [accepted, HandshakeLabel.Abides]
  refine ⟨s, t, hrun, ?_⟩
  rw [← hpeers]
  exact (handshake_agreement Platform.plain_lawful.parsesPeers hrun).2.2.2 ⟨0⟩ hb

end P2pMpc
