import P2pMpc.HandshakeAgreement
import P2pMpc.Traffic

/-!
# A handshake without loss completes

`Exchange.InRound` bounds what is on its way in a round from above. If nothing is lost there is a
bound from below as well, `Exchange.Awaits`: of each member that the coordinator has not counted the
Request or the Acceptance is on its way, and the session of the coordinator is complete only once
its orchestrator is installed. When the traffic has ended, nothing is left to wait for.
-/

namespace P2pMpc

open StateMachine

variable {X : Platform} {n : ℕ}

namespace Exchange

/-- What the coordinator of the round still waits for. -/
structure Awaits (r : Round X n) (e : Exchange X n) : Prop where
  stored : ∃ s, (e.nodes r.coordinator).sessions.lookup r.sessionId = some s ∧
    (s.allAccepted = true → e.Installed r.coordinator)
  owed : ∀ k, r.Member k → r.Counted (e.nodes r.coordinator) (r.ids k) ∨
    0 < e.requests r k + e.acceptances r k

variable {r : Round X n} {e e' : Exchange X n} {k : Fin n}

/-- As many messages on their way, and nothing forgotten by the coordinator. -/
theorem Awaits.of_le (h : e.Awaits r)
    (hsessions : (e'.nodes r.coordinator).sessions = (e.nodes r.coordinator).sessions)
    (hinstalled : e.Installed r.coordinator → e'.Installed r.coordinator)
    (hle : ∀ k, r.Member k →
      e.requests r k + e.acceptances r k ≤ e'.requests r k + e'.acceptances r k) :
    e'.Awaits r where
  stored := by
    obtain ⟨s, hs, hcomplete⟩ := h.stored
    exact ⟨s, hsessions ▸ hs, fun hall => hinstalled (hcomplete hall)⟩
  owed := by
    intro k hk
    have hsame : r.Counted (e'.nodes r.coordinator) (r.ids k) ↔
        r.Counted (e.nodes r.coordinator) (r.ids k) := by
      unfold Round.Counted
      rw [hsessions]
    rw [hsame]
    exact (h.owed k hk).imp_right fun hpos => hpos.trans_le (hle k hk)

/-- A node that works changes nothing the coordinator waits for. -/
theorem Awaits.works (h : e.Awaits r) {l : NodeLabel X} {m : Node X}
    (hworks : (e.nodes k).WorksTo l m) {w : List (Fin n × AssignmentMessage)}
    (hw : e.wire.Perm w) : (e.setNode k m w).Awaits r := by
  obtain ⟨hsessions, -, -, hslot⟩ := hworks
  refine h.of_le ?_ (installed_setNode_mono (SameRoster.of_works hslot).none_iff.2 _ _) ?_
  · by_cases hk : r.coordinator = k
    · subst hk
      rw [nodes_setNode_self, hsessions]
    · rw [nodes_setNode_ne e hk]
  · intro j _
    simp only [requests, acceptances, setNode, hw.countP_eq]
    exact le_refl _

/-- The Request is taken from the channel and published. -/
theorem Awaits.process (h : e.Awaits r) (hround : e.InRound r) {msg : AssignmentMessage}
    {q : List AssignmentMessage} (hq : e.queue k = msg :: q) : Awaits r
      { e with queue := Function.update e.queue k q, wire := e.wire ++ copies k msg } := by
  obtain ⟨rfl, rfl⟩ := hround.ofRound.queue k msg (by simp [hq])
  refine h.of_le rfl id fun j hj => ?_
  have hcopies := countP_copies r.coordinator j
    (.request r.coordinatorId r.assignments r.sessionId) (requestTo j) (by simp [requestTo])
  rw [if_pos ⟨hj.1, by simp [requestTo]⟩] at hcopies
  simp only [requests, acceptances, hq, Function.update_self, List.length_cons, List.countP_append,
    hcopies]
  omega

section Delivery

variable {w : List (Fin n × AssignmentMessage)} {m : Node X} {answer : Option AssignmentMessage}

/-- A member that a Request reaches answers it. -/
theorem request_answered (hX : X.ParsesPeers) (hr : r.Valid) (hround : e.InRound r)
    (hk : r.Member k) {c sid : String} {A : HashMap String ℕ}
    (hmsg : r.MessageTo e.Installed k (.request c A sid)) {now : UInt64}
    (he : (e.nodes k).handleAssignmentMessage true now (.request c A sid) = (m, answer)) :
    ∃ i, answer = some (.acceptance (X.peerToString (r.ids k)) i r.sessionId) := by
  obtain ⟨rfl, hA, rfl, -⟩ := hmsg
  have hid := hround.ofRound.ids k
  have hmem : X.peerToString (e.nodes k).id ∈ A := by
    rw [AList.mem_of_perm hA, hr.mem_assignments, hid]
    exact .inr (List.mem_map_of_mem hk.2)
  have hother : r.coordinatorId ≠ X.peerToString (e.nodes k).id := by
    rw [hid]
    exact fun heq => hk.1 (hr.ids_injective (hX.injective heq)).symm
  rcases (e.nodes k).handleRequest_cases true now r.coordinatorId A r.sessionId with
    ⟨hno, -⟩ | ⟨i, -, ⟨hno, -⟩ | ⟨-, -, he'⟩⟩
  · exact absurd hmem hno
  · simp [hother] at hno
  · rw [he'] at he
    cases he
    exact ⟨i, by rw [hid]⟩

/-- The Request that was on its way to a host is answered by a member. -/
theorem Awaits.request (hX : X.ParsesPeers) (hr : r.Valid) (h : e.Awaits r)
    (hround : e.InRound r) {c sid : String} {A : HashMap String ℕ}
    (hw : e.wire.Perm ((k, .request c A sid) :: w)) (now : UInt64)
    (he : (e.nodes k).handleAssignmentMessage true now (.request c A sid) = (m, answer)) :
    (e.setNode k m (w ++ answer.toList.flatMap (copies k))).Awaits r := by
  have hmsg := hround.ofRound.wire k _ (hw.mem_iff.2 List.mem_cons_self)
  have hk : r.coordinator ≠ k := fun heq => hmsg.2.2.2 heq.symm
  refine h.of_le ?_ (installed_setNode_ne hk).2 fun j hj => ?_
  · rw [nodes_setNode_ne e hk]
  · have hrequests := countP_deliver hw (requestTo j)
    have hacceptances := countP_deliver hw (acceptanceTo r.coordinator (X.peerToString (r.ids j)))
    simp only [acceptanceTo, Bool.false_eq_true, if_false, Nat.add_zero] at hacceptances
    show (e.queue r.coordinator).length + e.wire.countP _ + e.wire.countP _ ≤
      (e.queue r.coordinator).length + (w ++ _).countP _ + (w ++ _).countP _
    rw [List.countP_append, List.countP_append, hrequests, hacceptances]
    by_cases hjk : j = k
    · subst hjk
      -- the Acceptance takes the place of the Request
      obtain ⟨i, rfl⟩ := request_answered hX hr hround hj hmsg he
      have hcopies := countP_copies j r.coordinator
        (.acceptance (X.peerToString (r.ids j)) i r.sessionId)
        (acceptanceTo r.coordinator (X.peerToString (r.ids j))) (by simp [acceptanceTo])
      rw [if_pos ⟨hk, by simp [acceptanceTo]⟩] at hcopies
      simp only [Option.toList_some, List.flatMap_singleton, hcopies, requestTo, decide_true,
        if_true]
      omega
    · simp only [requestTo, decide_eq_true_eq, Ne.symm hjk, if_false]
      omega

/-- The coordinator counts an Acceptance, and installs its orchestrator if the session has all it
needs. -/
theorem Awaits.acceptance (hX : X.ParsesPeers) (hr : r.Valid) (h : e.Awaits r)
    (hround : e.InRound r) {p sid : String} {i : ℕ}
    (hw : e.wire.Perm ((k, .acceptance p i sid) :: w)) (now : UInt64)
    (he : (e.nodes k).handleAssignmentMessage true now (.acceptance p i sid) = (m, answer)) :
    (e.setNode k m (w ++ answer.toList.flatMap (copies k))).Awaits r := by
  obtain ⟨rfl, j, hj, -, -, rfl⟩ := hround.ofRound.wire k _ (hw.mem_iff.2 List.mem_cons_self)
  have hrequests : ∀ i, w.countP (requestTo i) = e.wire.countP (requestTo i) := by
    intro i
    rw [countP_deliver hw]
    rfl
  have hnone : answer = none := by
    rcases (e.nodes k).handleAcceptance_cases true now (X.peerToString (r.ids j)) i r.sessionId with
      ⟨-, he'⟩ | ⟨s, -, ⟨-, he'⟩ | ⟨-, he'⟩⟩ <;> rw [he'] at he <;> cases he <;> rfl
  rw [hnone, Option.toList_none, List.flatMap_nil, List.append_nil]
  by_cases hk : r.coordinator = k
  · subst hk
    obtain ⟨s, hs, -⟩ := h.stored
    have hnode : m.sessions.lookup r.sessionId = some (s.accept (X.peerToString (r.ids j))) ∧
        ((s.accept (X.peerToString (r.ids j))).allAccepted = true →
          m.mpcOrchestrator ≠ none) := by
      rcases (e.nodes r.coordinator).handleAcceptance_cases true now (X.peerToString (r.ids j)) i
        r.sessionId with ⟨hno, -⟩ | ⟨s', hs', ⟨hall, he'⟩ | ⟨-, he'⟩⟩
      · simp [hs] at hno
      · obtain rfl := Option.some.inj (hs.symm.trans hs')
        rw [he'] at he
        cases he
        exact ⟨AList.lookup_insert _, fun hall' => by simp [hall] at hall'⟩
      · obtain rfl := Option.some.inj (hs.symm.trans hs')
        rw [he'] at he
        cases he
        exact ⟨AList.lookup_insert _, fun _ => Option.some_ne_none _⟩
    refine ⟨⟨_, by rw [nodes_setNode_self]; exact hnode.1, fun hall => ?_⟩, fun i' hi' => ?_⟩
    · exact installed_setNode_self.2 (hnode.2 hall)
    · have hcounted : ∀ q, r.Counted m q ↔
          X.peerToString q = X.peerToString (r.ids j) ∨ X.peerToString q ∈ s.acceptances := by
        intro q
        simp only [Round.Counted, hnode.1, Option.some.injEq, exists_eq_left',
          SessionInfo.mem_accept]
      rw [nodes_setNode_self, hcounted]
      by_cases hij : i' = j
      · exact .inl (.inl (by rw [hij]))
      · have hacc := countP_deliver hw (acceptanceTo r.coordinator (X.peerToString (r.ids i')))
        rw [hr.acceptanceTo_eq hX, decide_eq_false hij, if_neg Bool.false_ne_true] at hacc
        rcases h.owed i' hi' with ⟨s', hs', hmem⟩ | hpos
        · obtain rfl := Option.some.inj (hs.symm.trans hs')
          exact .inl (.inr hmem)
        · refine .inr ?_
          show 0 < (e.queue r.coordinator).length + w.countP _ + w.countP _
          rw [hrequests i']
          simp only [requests, acceptances] at hpos
          omega
  · -- another host counts for itself alone
    refine h.of_le ?_ (installed_setNode_ne hk).2 fun i' _ => ?_
    · rw [nodes_setNode_ne e hk]
    · have hacc := countP_deliver hw (acceptanceTo r.coordinator (X.peerToString (r.ids i')))
      simp only [acceptanceTo, Ne.symm hk, decide_false, Bool.false_and, Bool.false_eq_true,
        if_false] at hacc
      show (e.queue r.coordinator).length + e.wire.countP _ + e.wire.countP _ ≤
        (e.queue r.coordinator).length + w.countP _ + w.countP _
      rw [hrequests i', hacc]
      omega

end Delivery

/-- The assignments of a session are met in another order. -/
theorem Awaits.rehashSession (h : e.Awaits r) {sid : String} {s : SessionInfo}
    (hs : (e.nodes k).sessions.lookup sid = some s) (A : HashMap String ℕ) :
    (e.setNode k ((e.nodes k).record sid { s with assignments := A }) e.wire).Awaits r := by
  by_cases hk : r.coordinator = k
  · subst hk
    obtain ⟨s', hs', hcomplete⟩ := h.stored
    have hlookup : ∃ s'', ((e.nodes r.coordinator).record sid
        { s with assignments := A }).sessions.lookup r.sessionId = some s'' ∧
          s''.allAccepted = s'.allAccepted ∧ s''.acceptances = s'.acceptances := by
      rw [Node.lookup_record]
      split_ifs with hsid
      · obtain rfl := Option.some.inj (hs.symm.trans (hsid ▸ hs'))
        exact ⟨_, rfl, rfl, rfl⟩
      · exact ⟨s', hs', rfl, rfl⟩
    obtain ⟨s'', hs'', hall, hacc⟩ := hlookup
    refine ⟨⟨s'', by rw [nodes_setNode_self]; exact hs'', fun hall' => ?_⟩, fun j hj => ?_⟩
    · exact installed_setNode_self.2 (hcomplete (hall ▸ hall'))
    · refine (h.owed j hj).imp_left ?_
      rintro ⟨s₁, hs₁, hmem⟩
      obtain rfl := Option.some.inj (hs'.symm.trans hs₁)
      exact ⟨s'', by rw [nodes_setNode_self]; exact hs'', hacc ▸ hmem⟩
  · refine h.of_le ?_ (installed_setNode_ne hk).2 fun _ _ => le_refl _
    rw [nodes_setNode_ne e hk]

/-- The assignments of a Request are met in another order. -/
theorem Awaits.rehashMessage (h : e.Awaits r) {c sid : String} {A A' : HashMap String ℕ}
    {w w' : List (Fin n × AssignmentMessage)} (hw : e.wire.Perm ((k, .request c A sid) :: w))
    (hw' : w'.Perm ((k, .request c A' sid) :: w)) : Awaits r { e with wire := w' } := by
  have hcount : ∀ f, f (k, .request c A' sid) = f (k, .request c A sid) →
      w'.countP f = e.wire.countP f := by
    intro f hf
    rw [hw'.countP_eq, hw.countP_eq, List.countP_cons, List.countP_cons, hf]
  refine h.of_le rfl id fun j _ => ?_
  show _ ≤ (e.queue r.coordinator).length + w'.countP _ + w'.countP _
  rw [hcount _ rfl, hcount _ rfl]
  rfl

end Exchange

/-! ### Runs without loss -/

/-- Gossipsub takes what is published in the step. -/
def HandshakeLabel.lossless : HandshakeLabel X n → Bool
  | .net l => l.lossless
  | _ => true

namespace Net

/-- The hosts have different ids, and no packet goes back to the host it comes from. -/
structure Addressed (s : Net X n) : Prop where
  ids_injective : Function.Injective s.id
  wire : ∀ p ∈ s.wire, p.source ≠ s.id p.dest

variable {s t : Net X n} {r : Round X n}

theorem Addressed.publish (h : s.Addressed) {k : Fin n} {g : Option (Gossip X)} :
    (s.publish k g).Addressed := by
  refine ⟨h.ids_injective, fun p hp => ?_⟩
  rcases mem_publish.1 hp with hp | ⟨hsource, hdest, -⟩
  · exact h.wire p hp
  · rw [hsource]
    exact fun heq => hdest (h.ids_injective heq).symm

theorem Addressed.of_wire (h : s.Addressed) (hid : t.id = s.id) (hw : t.wire ⊆ s.wire) :
    t.Addressed := by
  refine ⟨hid ▸ h.ids_injective, fun p hp => ?_⟩
  rw [hid]
  exact h.wire p (hw hp)

theorem Addressed.step (h : s.Addressed) {l : HandshakeLabel X n}
    (hs : s.handshakeStep l = some t) : t.Addressed := by
  have hid := handshakeStep_id hs
  cases l with
  | net l =>
    cases l with
    | act k a =>
      obtain ⟨_, -, rfl⟩ := step_act_eq_some.1 hs
      exact h.of_wire hid (List.Subset.refl _)
    | process k published =>
      obtain ⟨_, cs, -, rfl⟩ := step_process_eq_some.1 hs
      exact (h.of_wire (t := s.setHost k { s.hosts k with queue := cs }) (id_setHost rfl)
        (List.Subset.refl _)).publish
    | deliver i published now =>
      obtain ⟨p, -, rfl⟩ := step_deliver_eq_some.1 hs
      exact (h.of_wire (t := Net.setHost { s with wire := s.wire.eraseIdx i } p.dest
        ((s.hosts p.dest).receive p.source published now p.content)) hid
          (List.eraseIdx_sublist _ _).subset).publish
  | rehashSession k sid A =>
    obtain ⟨_, -, -, rfl⟩ := rehashSession_eq_some hs
    exact h.of_wire hid (List.Subset.refl _)
  | rehashMessage i A =>
    obtain ⟨source, dest, c, old, sid, hp, -, rfl⟩ := rehashMessage_eq_some hs
    refine ⟨h.ids_injective, fun q hq => ?_⟩
    rcases List.mem_or_eq_of_mem_set hq with hq | rfl
    · exact h.wire q hq
    · exact h.wire ⟨source, dest, .assignment (.request c old sid)⟩ (List.mem_of_getElem? hp)

theorem awaits_act {k : Fin n} {a : Action X} {p : Prop} (h : s.exchange.Awaits r)
    (ha : a.Abides p) (hs : s.step (.act k a) = some t) : t.exchange.Awaits r := by
  obtain ⟨res, hres, rfl⟩ := step_act_eq_some.1 hs
  have hnode : (s.hosts k).node.step (.act a) = some res.1 := by simp [Node.step, hres]
  have hqueue : Function.update s.exchange.queue k
      (((s.hosts k).acted res).queue.filterMap NetworkCommand.assignmentMessage) =
        s.exchange.queue := by
    show Function.update s.exchange.queue k
      (((s.hosts k).queue ++ res.2).filterMap NetworkCommand.assignmentMessage) = _
    rw [List.filterMap_append, Node.act_assignmentMessage hres ha, List.append_nil]
    exact Function.update_eq_self _ _
  rw [exchange_setHost, hqueue]
  exact h.works (Node.act_worksTo hnode ha) (List.Perm.refl _)

theorem awaits_process {k : Fin n} (h : s.exchange.Awaits r) (hround : s.exchange.InRound r)
    (hs : s.step (.process k true) = some t) : t.exchange.Awaits r := by
  obtain ⟨cmd, cs, hq, rfl⟩ := step_process_eq_some.1 hs
  have hqueue : s.exchange.queue k = cmd.assignmentMessage.toList ++
      cs.filterMap NetworkCommand.assignmentMessage := by
    show (s.hosts k).queue.filterMap NetworkCommand.assignmentMessage = _
    rw [hq, Lists.filterMap_cons_eq]
  have hnodes : Function.update s.exchange.nodes k (s.hosts k).node = s.exchange.nodes :=
    Function.update_eq_self _ _
  rw [exchange_publish, exchange_setHost, if_pos rfl, cmd.assignmentMessage_gossip]
  simp only [hnodes]
  cases hc : cmd.assignmentMessage with
  | none =>
    rw [hc, Option.toList_none, List.nil_append] at hqueue
    rw [← hqueue, Function.update_eq_self, Option.toList_none, List.flatMap_nil, List.append_nil]
    exact h
  | some msg =>
    rw [hc] at hqueue
    rw [Option.toList_some, List.flatMap_singleton]
    exact h.process hround hqueue

theorem awaits_deliver (hX : X.ParsesPeers) (hr : r.Valid) {i : ℕ} {now : UInt64}
    (h : s.exchange.Awaits r) (hround : s.exchange.InRound r) (haddr : s.Addressed)
    (hs : s.step (.deliver i true now) = some t) : t.exchange.Awaits r := by
  obtain ⟨p, hp, rfl⟩ := step_deliver_eq_some.1 hs
  obtain ⟨hi, hpi⟩ := List.getElem?_eq_some_iff.1 hp
  have hw := (List.getElem_cons_eraseIdx_perm hi).symm.filterMap Packet.assignmentMessage
  rw [hpi, Lists.filterMap_cons_eq] at hw
  have hne : some p.source ≠ some (s.hosts p.dest).node.id := by
    rw [ne_eq, Option.some.injEq]
    exact haddr.wire p (List.mem_of_getElem? hp)
  have hnode : (s.hosts p.dest).node.step (.receive (some p.source) true now p.content) =
    some ((s.hosts p.dest).effect p.source true now p.content).node := rfl
  rw [exchange_deliver]
  cases hg : p.content with
  | assignment msg =>
    have hperm : s.exchange.wire.Perm
        ((p.dest, msg) :: (s.wire.eraseIdx i).filterMap Packet.assignmentMessage) := by
      rw [Packet.assignmentMessage, hg] at hw
      exact hw
    have heffect : (s.hosts p.dest).effect p.source true now (.assignment msg) =
        ⟨((s.hosts p.dest).node.handleAssignmentMessage true now msg).1,
          ((s.hosts p.dest).node.handleAssignmentMessage true now msg).2.map .assignment, none⟩ :=
      if_neg hne
    have hbind : ∀ answer : Option AssignmentMessage,
        (answer.map (Gossip.assignment (X := X))).bind Gossip.assignmentMessage = answer := by
      intro answer
      cases answer <;> rfl
    rw [heffect, hbind]
    cases msg with
    | request c A sid => exact h.request hX hr hround hperm now rfl
    | acceptance q j sid => exact h.acceptance hX hr hround hperm now rfl
  | coordination | protocol | other =>
    rw [hg] at hnode
    rw [Packet.assignmentMessage, hg] at hw
    have hnone : ∀ g',
        ((s.hosts p.dest).effect p.source true now p.content).published ≠ some g' := by
      intro g' hg'
      obtain ⟨⟨_, _, _, hc⟩, -⟩ := Node.onMessage_answers hg'
      rw [hg] at hc
      cases hc
    rw [hg] at hnone
    rw [Option.eq_none_iff_forall_ne_some.2 hnone, Option.bind_none, Option.toList_none,
      List.flatMap_nil, List.append_nil]
    rcases Node.step_cases hnode with ⟨_, he, -⟩ | ⟨_, _, _, msg, he, -, -⟩ | hworks
    · cases he
    · cases he
    · exact h.works hworks hw

theorem awaits_step (hX : X.ParsesPeers) (hr : r.Valid) (h : s.exchange.Awaits r)
    (hround : s.exchange.InRound r) (haddr : s.Addressed) {l : HandshakeLabel X n}
    (hl : l.Abides r.coordinator) (hlossless : l.lossless = true)
    (hs : s.handshakeStep l = some t) : t.exchange.Awaits r := by
  cases l with
  | net l =>
    cases l with
    | act k a => exact awaits_act h hl hs
    | process k published =>
      obtain rfl : published = true := hlossless
      exact awaits_process h hround hs
    | deliver i published now =>
      obtain rfl : published = true := hlossless
      exact awaits_deliver hX hr h hround haddr hs
  | rehashSession k sid A =>
    obtain ⟨session, hsession, -, rfl⟩ := rehashSession_eq_some hs
    have hqueue : Function.update s.exchange.queue k
        ((s.hosts k).queue.filterMap NetworkCommand.assignmentMessage) = s.exchange.queue :=
      Function.update_eq_self _ _
    rw [exchange_setHost, hqueue]
    exact h.rehashSession hsession A
  | rehashMessage i A =>
    obtain ⟨source, dest, c, old, sid, hp, -, rfl⟩ := rehashMessage_eq_some hs
    obtain ⟨hi, hpi⟩ := List.getElem?_eq_some_iff.1 hp
    have hw := (List.getElem_cons_eraseIdx_perm hi).symm.filterMap Packet.assignmentMessage
    rw [hpi] at hw
    exact h.rehashMessage hw
      ((List.set_perm_cons_eraseIdx hi _).filterMap Packet.assignmentMessage)

/-- In a run from the start the host `c` assigns indices in the state `s`; up to the state `t` this
is the only assignment, and from it on nothing is lost. -/
def LosslessHandshake (c : Fin n) (s t : Net X n) : Prop :=
  ∃ s₀ before now s₁ after, (handshakeMachine X n).init s₀ ∧
    (∀ l ∈ before, HandshakeLabel.Abides c l) ∧ (handshakeMachine X n).run s₀ before = some s ∧
    s.step (.act c (.assignPeerIndices now)) = some s₁ ∧
    (∀ l ∈ after, HandshakeLabel.Abides c l ∧ l.lossless = true) ∧
    (handshakeMachine X n).run s₁ after = some t

/-- What holds after the assignment if nothing is lost. -/
structure Lossless (r : Round X n) (s : Net X n) : Prop where
  after : s.After r
  addressed : s.Addressed
  awaits : s.exchange.Awaits r

/-- The session of an assignment to others is not complete. -/
theorem awaits_assign (h : s.exchange.Unassigned) {c : Fin n} {now : UInt64}
    (hvalid : (s.exchange.roundOf c now).Valid) (hpeers : (s.hosts c).node.peerList ≠ []) :
    (s.exchange.assign c now).Awaits (s.exchange.roundOf c now) where
  stored := by
    refine ⟨.new now (s.exchange.roundOf c now).sessionId (s.exchange.roundOf c now).coordinatorId
      (s.hosts c).node.createAssignments, ?_, fun hall => ?_⟩
    · have hnode : (s.exchange.assign c now).nodes c =
        ((s.exchange.nodes c).assignPeerIndices now).1 := Function.update_self ..
      show ((s.exchange.assign c now).nodes c).sessions.lookup _ = _
      rw [hnode]
      exact AList.lookup_insert _
    · have hlen : (s.hosts c).node.createAssignments.entries.length =
        (s.hosts c).node.peerList.length + 1 := hvalid.length_assignments
      rw [SessionInfo.allAccepted, Bool.and_eq_true, beq_iff_eq] at hall
      have hzero : 0 = usizeSub (s.hosts c).node.createAssignments.entries.length 1 := hall.1
      rw [hlen, usizeSub, if_pos (by omega), Nat.add_sub_cancel] at hzero
      exact absurd (List.length_eq_zero_iff.1 hzero.symm) hpeers
  owed := by
    intro k _
    refine .inr ?_
    show 0 < ((s.exchange.assign c now).queue c).length + _ + _
    rw [Exchange.queue_assign h, List.length_singleton]
    omega

/-- A run without loss ends in a state of its round that lacks nothing. -/
theorem LosslessHandshake.lossless (hX : X.ParsesPeers) {c : Fin n} (h : LosslessHandshake c s t)
    (hpeers : (s.hosts c).node.peerList ≠ []) : ∃ r : Round X n, r.Valid ∧ r.coordinator = c ∧
      r.peers = (s.hosts c).node.peerList ∧ r.ids = s.id ∧
      r.assignments = (s.hosts c).node.createAssignments ∧ t.Lossless r := by
  obtain ⟨s₀, before, now, s₁, after, hinit, hbefore, hrun, hassign, hafter, hrun'⟩ := h
  have hs : s.Before := Machine.run_preserves_of_forall (M := handshakeMachine X n)
    (fun _ _ _ h hl => h.step hl) (Before.of_init hinit) hbefore hrun
  have haddr₀ : s₀.Addressed := by
    obtain ⟨ids, hids, rfl⟩ := hinit
    exact ⟨hids, fun p hp => by cases hp⟩
  have haddr : s.Addressed := Machine.run_preserves (M := handshakeMachine X n)
    (fun _ _ _ h hl => h.step hl) haddr₀ hrun
  have hr := Exchange.valid_roundOf hX hs.unassigned hs.ids_injective c now
  have hstart : s₁.Lossless (s.exchange.roundOf c now) := by
    refine ⟨After.of_assign hX hs hassign,
      haddr.step (l := .net (.act c (.assignPeerIndices now))) hassign, ?_⟩
    rw [step_exchange_assign hassign]
    exact awaits_assign hs.unassigned hr hpeers
  refine ⟨_, hr, rfl, rfl, rfl, rfl, Machine.run_preserves_of_forall (M := handshakeMachine X n)
    (fun u l v hu hl hs => ?_) hstart hafter hrun'⟩
  exact ⟨hu.after.step hX hr hl.1 hs, hu.addressed.step hs,
    awaits_step hX hr hu.awaits hu.after.inRound hu.addressed hl.1 hl.2 hs⟩

/-- Once no assignment message is on its way, the coordinator and its members have installed. -/
theorem Lossless.installed (hX : X.ParsesPeers) (hr : r.Valid) (h : s.Lossless r)
    (hids : ∀ p ∈ r.peers, ∃ k, r.ids k = p) (hqueue : s.exchange.queue r.coordinator = [])
    (hwire : s.exchange.wire = []) {k : Fin n} (hk : k = r.coordinator ∨ r.ids k ∈ r.peers) :
    (s.hosts k).node.mpcOrchestrator ≠ none := by
  have hmember : ∀ k, r.ids k ∈ r.peers → r.Member k := by
    intro k hk
    refine ⟨?_, hk⟩
    rintro rfl
    exact (List.nodup_cons.1 hr.peers_distinct).1 hk
  obtain ⟨session, hs, hcomplete⟩ := h.awaits.stored
  have hof := h.after.inRound.ofRound.sessions r.coordinator _ session hs
  have hcounted : ∀ k, r.Member k → X.peerToString (r.ids k) ∈ session.acceptances := by
    intro k hk
    rcases h.awaits.owed k hk with ⟨session', hs', hmem⟩ | hpos
    · obtain rfl := Option.some.inj (hs.symm.trans hs')
      exact hmem
    · simp [Exchange.requests, Exchange.acceptances, hqueue, hwire] at hpos
  rcases hk with rfl | hk
  · apply hcomplete
    have hsub : r.peers.map X.peerToString ⊆ session.acceptances.keys := by
      intro q hq
      obtain ⟨p, hp, rfl⟩ := List.mem_map.1 hq
      obtain ⟨k, rfl⟩ := hids p hp
      exact AList.mem_keys.1 (hcounted k (hmember k hp))
    have hnodup : (r.peers.map X.peerToString).Nodup :=
      (List.nodup_cons.1 hr.peers_distinct).2.map hX.injective
    have hperm := (List.subperm_of_subset hnodup hsub).antisymm
      (List.subperm_of_subset session.acceptances.keys_nodup hof.keys_subset)
    rw [hof.allAccepted_iff]
    have hlen := hperm.length_eq
    rw [List.length_map] at hlen
    rw [hlen]
    exact (List.length_map _).symm
  · obtain ⟨j, hj, hinst, -, he⟩ := hof.accepted _ (hcounted k (hmember k hk))
    rw [hr.ids_injective (hX.injective he)]
    exact hinst

/-- A run of the network is one of the handshake. -/
theorem run_net (s : Net X n) (ls : List (NetLabel X n)) :
    (handshakeMachine X n).run s (ls.map .net) = (netMachine X n).run s ls := by
  induction ls generalizing s with
  | nil => rfl
  | cons l ls ih =>
    rw [List.map_cons, Machine.run_cons, Machine.run_cons]
    show (s.step l).bind _ = (s.step l).bind _
    congr 1
    funext u
    exact ih u

/-- Lossless moves go on with a handshake without loss. -/
theorem LosslessHandshake.moves {c : Fin n} (h : LosslessHandshake c s t)
    {ms : List (NetLabel X n)} (hms : ∀ l ∈ ms, l.moves = true ∧ l.lossless = true) {u : Net X n}
    (hr : (netMachine X n).run t ms = some u) : LosslessHandshake c s u := by
  obtain ⟨s₀, before, now, s₁, after, hinit, hbefore, hrun, hassign, hafter, hrun'⟩ := h
  refine ⟨s₀, before, now, s₁, after ++ ms.map .net, hinit, hbefore, hrun, hassign, ?_,
    Machine.run_append_eq_some.2 ⟨t, hrun', by rw [run_net]; exact hr⟩⟩
  intro l hl
  rcases List.mem_append.1 hl with hl | hl
  · exact hafter l hl
  · obtain ⟨l', hl', rfl⟩ := List.mem_map.1 hl
    refine ⟨?_, (hms l' hl').2⟩
    cases l' with
    | act k a => exact absurd (hms _ hl').1 Bool.false_ne_true
    | process | deliver => trivial

end Net

/-- The host `c`, which lists some peers and only hosts of the network, makes the only assignment of
a run in which no assignment or coordination message is put together by hand, only `c` initiates
phases, and nothing is lost from the assignment on. In whatever order the steps come, the
coordinator and all its peers have installed an orchestrator as soon as no assignment message waits
or is on its way; and taking and delivering messages alone leads there. -/
theorem handshake_completes (hX : X.ParsesPeers) {c : Fin n} {s t : Net X n}
    (h : Net.LosslessHandshake c s t) (hpeers : (s.hosts c).node.peerList ≠ [])
    (hids : ∀ p ∈ (s.hosts c).node.peerList, ∃ k, s.id k = p) :
    (t.exchange.queue c = [] → t.exchange.wire = [] →
      ∀ k, k = c ∨ s.id k ∈ (s.hosts c).node.peerList →
        (t.hosts k).node.mpcOrchestrator ≠ none) ∧
    ∃ ms u, (∀ l ∈ ms, l.moves = true ∧ l.lossless = true) ∧
      (netMachine X n).run t ms = some u ∧ u.Silent ∧
      ∀ k, k = c ∨ s.id k ∈ (s.hosts c).node.peerList →
        (u.hosts k).node.mpcOrchestrator ≠ none := by
  have hinstalled : ∀ u, Net.LosslessHandshake c s u → u.exchange.queue c = [] →
      u.exchange.wire = [] → ∀ k, k = c ∨ s.id k ∈ (s.hosts c).node.peerList →
        (u.hosts k).node.mpcOrchestrator ≠ none := by
    intro u hu hqueue hwire k hk
    obtain ⟨r, hr, rfl, hrpeers, hrids, -, hlossless⟩ := hu.lossless hX hpeers
    rw [← hrpeers, ← hrids] at hids hk
    exact hlossless.installed hX hr hids hqueue hwire hk
  refine ⟨hinstalled t h, ?_⟩
  obtain ⟨ms, u, hms, hr, hsilent⟩ := t.exists_silent
  refine ⟨ms, u, hms, hr, hsilent, hinstalled u (h.moves hms hr) ?_ ?_⟩
  · show (u.hosts c).queue.filterMap _ = []
    rw [hsilent.queue c]
    rfl
  · show u.wire.filterMap _ = []
    rw [hsilent.wire]
    rfl

open ThreeNodes

/-- When `a` has taken the Request of its assignment to `b` and `c`, all three can be brought to
install an orchestrator. -/
theorem handshake_of_three_completes : ∃ s t : Net .plain 3, Net.LosslessHandshake a s t ∧
    ∃ ms u, (∀ l ∈ ms, l.moves = true ∧ l.lossless = true) ∧
      (netMachine .plain 3).run t ms = some u ∧ u.Silent ∧
      ∀ k, (u.hosts k).node.mpcOrchestrator ≠ none := by
  obtain ⟨s, s₁, t, hs, hassign, ht, hpeers, hids⟩ : ∃ s s₁ t : Net .plain 3,
      (handshakeMachine .plain 3).run start connected = some s ∧
      s.step (.act a (.assignPeerIndices 5)) = some s₁ ∧
      (handshakeMachine .plain 3).run s₁ [.net (.process a true)] = some t ∧
      (s.hosts a).node.peerList = ["b", "c"] ∧ s.id = ids :=
    ⟨_, _, _, rfl, rfl, rfl, rfl, funext fun | 0 => rfl | 1 => rfl | 2 => rfl⟩
  have hrun : Net.LosslessHandshake a s t := by
    refine ⟨start, connected, 5, s₁, _, ⟨ids, ids_injective, rfl⟩, ?_, hs, hassign, ?_, ht⟩
    · simp [connected, HandshakeLabel.Abides, Action.Abides]
    · simp [HandshakeLabel.Abides, HandshakeLabel.lossless, NetLabel.lossless]
  have hhosts : ∀ p ∈ ["b", "c"], ∃ k, ids k = p := by decide
  have hassigned : ∀ k, k = a ∨ ids k ∈ ["b", "c"] := by decide
  obtain ⟨-, ms, u, hms, hr, hsilent, hinst⟩ := handshake_completes
    Platform.plain_lawful.parsesPeers hrun (hpeers ▸ List.cons_ne_nil _ _)
      (by rw [hpeers, hids]; exact hhosts)
  refine ⟨s, t, hrun, ms, u, hms, hr, hsilent, fun k => hinst k ?_⟩
  rw [hpeers, hids]
  exact hassigned k

end P2pMpc
