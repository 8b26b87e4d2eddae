import P2pMpc.HandshakeNetwork
import P2pMpc.InstalledIndices

/-!
# What a session id names

A session id is the peer id of the coordinator and the second of the call. Different nodes never
make the same id, whatever their peer ids look like; one node makes the same id again when it calls
twice in a second, and then overwrites its session, while a node that has adopted the first keeps it
and builds its orchestrator from the second. An id names one assignment as long as the calls of a
second find the same peers, and no assignment message is put together by hand.
-/

namespace P2pMpc

open StateMachine Lists

variable {X : Platform} {n : ℕ}

/-! ### Session ids -/

/-- Where a number follows the last `-` of two equal texts, it is the same, and so is the rest. -/
theorem append_toString_inj {a b : String} {x y : ℕ} :
    a ++ "-" ++ toString x = b ++ "-" ++ toString y ↔ a = b ∧ x = y := by
  have hlist : ∀ (c : String) (z : ℕ),
      (c ++ "-" ++ toString z).toList = c.toList ++ '-' :: Nat.toDigits 10 z := by
    intro c z
    simp [String.toList_append, Nat.toString_eq_repr, Nat.toList_repr]
  have hnot : ∀ z : ℕ, '-' ∉ Nat.toDigits 10 z := by
    intro z hz
    have hdigit := Nat.isDigit_of_mem_toDigits (by decide) (by decide) hz
    exact absurd hdigit (by decide)
  constructor
  · intro h
    have hl := congrArg String.toList h
    rw [hlist, hlist, append_cons_inj_right (hnot x) (hnot y)] at hl
    refine ⟨String.toList_inj.1 hl.1, ?_⟩
    rw [← Nat.ofDigitChars_ten_toDigits (n := x), hl.2, Nat.ofDigitChars_ten_toDigits]
  · rintro ⟨rfl, rfl⟩
    rfl

namespace Node

variable {m m' : Node X} {msg : AssignmentMessage} {l : NodeLabel X} {sid : String}
  {σ : SessionInfo}

/-- Two calls make the same id exactly if they are of one node and in one second. -/
theorem newSessionId_inj (hX : X.ParsesPeers) {now now' : UInt64} :
    m.newSessionId now = m'.newSessionId now' ↔ m.id = m'.id ∧ now = now' := by
  rw [newSessionId, newSessionId, append_toString_inj, hX.injective.eq_iff, UInt64.toNat_inj]

/-! ### The sessions of a node -/

/-- What a step can do to the sessions of a node. -/
inductive SessionsStep (m : Node X) (l : NodeLabel X) : HashMap String SessionInfo → Prop
  | keep : SessionsStep m l m.sessions
  | call (now : UInt64) (hl : l = .act (.assignPeerIndices now)) :
      SessionsStep m l (m.assignPeerIndices now).1.sessions
  | adopt (source : Option X.PeerId) (published : Bool) (now : UInt64) (c : String)
      (A : HashMap String ℕ) (sid : String)
      (hl : l = .receive source published now (.assignment (.request c A sid))) :
      SessionsStep m l (m.adopt now c A sid).sessions
  | count (source : Option X.PeerId) (published : Bool) (now : UInt64) (p : String) (i : ℕ)
      (sid : String) (hl : l = .receive source published now (.assignment (.acceptance p i sid)))
      (σ : SessionInfo) (hσ : m.sessions.lookup sid = some σ) :
      SessionsStep m l (m.record sid (σ.accept p)).sessions

theorem sessionsStep (h : m.step l = some m') : m.SessionsStep l m'.sessions := by
  rcases step_cases h with ⟨now, rfl, rfl⟩ | ⟨source, published, now, msg, rfl, -, rfl⟩ |
      ⟨hsessions, -⟩
  · exact .call now rfl
  · cases msg with
    | request c A sid =>
      rcases m.handleRequest_cases published now c A sid with
        ⟨-, he⟩ | ⟨i, -, ⟨-, he⟩ | ⟨-, -, he⟩⟩ <;> rw [he]
      · exact .keep
      · exact .adopt source published now c A sid rfl
      · exact .adopt source published now c A sid rfl
    | acceptance p i sid =>
      rcases m.handleAcceptance_cases published now p i sid with
        ⟨-, he⟩ | ⟨σ, hσ, ⟨-, he⟩ | ⟨-, he⟩⟩ <;> rw [he]
      · exact .keep
      · exact .count source published now p i sid rfl σ hσ
      · exact .count source published now p i sid rfl σ hσ
  · rw [hsessions]
    exact .keep

/-- How a session comes to be stored under the id `sid`: it was there, it has counted an acceptance,
a call has made it, or the node has adopted it from a Request. -/
inductive StoredBy (m : Node X) (l : NodeLabel X) (sid : String) (σ : SessionInfo) : Prop
  | kept (hσ : m.sessions.lookup sid = some σ)
  | counted (source : Option X.PeerId) (published : Bool) (now : UInt64) (p : String) (i : ℕ)
      (hl : l = .receive source published now (.assignment (.acceptance p i sid)))
      (σ₀ : SessionInfo) (hσ₀ : m.sessions.lookup sid = some σ₀) (hσ : σ = σ₀.accept p)
  | called (now : UInt64) (hl : l = .act (.assignPeerIndices now)) (hsid : sid = m.newSessionId now)
      (hσ : σ = .new now sid (X.peerToString m.id) m.createAssignments)
  | adopted (source : Option X.PeerId) (published : Bool) (now : UInt64) (c : String)
      (A : HashMap String ℕ)
      (hl : l = .receive source published now (.assignment (.request c A sid)))
      (hσ : σ = .new now sid c A)

theorem storedBy_of_step (h : m.step l = some m') (hσ : m'.sessions.lookup sid = some σ) :
    m.StoredBy l sid σ := by
  have hstep := sessionsStep h
  generalize m'.sessions = S at hstep hσ
  cases hstep with
  | keep => exact .kept hσ
  | call now hl =>
    rcases of_lookup_record hσ with ⟨rfl, rfl⟩ | hσ
    · exact .called now hl rfl rfl
    · exact .kept hσ
  | adopt source published now c A sid' hl =>
    rcases of_lookup_adopt hσ with ⟨rfl, rfl⟩ | hσ
    · exact .adopted source published now c A hl rfl
    · exact .kept hσ
  | count source published now p i sid' hl σ₀ hσ₀ =>
    rcases of_lookup_record hσ with ⟨rfl, rfl⟩ | hσ
    · exact .counted source published now p i hl σ₀ hσ₀ rfl
    · exact .kept hσ

/-- No session goes away, and only a call that makes its id again changes its assignments. -/
theorem lookup_of_step (h : m.step l = some m') (hσ : m.sessions.lookup sid = some σ)
    (hagree : ∀ now, l = .act (.assignPeerIndices now) → sid = m.newSessionId now →
      σ.assignments = m.createAssignments) :
    ∃ σ', m'.sessions.lookup sid = some σ' ∧ σ'.assignments = σ.assignments := by
  have hstep := sessionsStep h
  generalize m'.sessions = S at hstep
  cases hstep with
  | keep => exact ⟨σ, hσ, rfl⟩
  | call now hl =>
    have hrecord := m.lookup_record (m.newSessionId now) sid
      (.new now (m.newSessionId now) (X.peerToString m.id) m.createAssignments)
    split_ifs at hrecord with hsid
    · exact ⟨_, hrecord, (hagree now hl hsid).symm⟩
    · exact ⟨σ, hrecord.trans hσ, rfl⟩
  | adopt source published now c A sid' hl => exact ⟨σ, lookup_adopt hσ now c A sid', rfl⟩
  | count source published now p i sid' hl σ₀ hσ₀ =>
    have hrecord := m.lookup_record sid' sid (σ₀.accept p)
    split_ifs at hrecord with hsid
    · subst hsid
      obtain rfl := Option.some.inj (hσ.symm.trans hσ₀)
      exact ⟨_, hrecord, rfl⟩
    · exact ⟨σ, hrecord.trans hσ, rfl⟩

/-- What a node publishes in answer to a message is its acceptance of a Request. -/
theorem onMessage_published_eq_some {source : Option X.PeerId} {published : Bool} {now : UInt64}
    {g : Gossip X} (h : (m.onMessage source published now g).published = some (.assignment msg)) :
    ∃ c A sid i, g = .assignment (.request c A sid) ∧
      msg = .acceptance (X.peerToString m.id) i sid := by
  unfold onMessage at h
  split_ifs at h with hs
  cases g with
  | assignment msg' =>
    obtain ⟨answer, ha, he⟩ := Option.map_eq_some_iff.1 h
    cases he
    cases msg' with
    | request c A sid =>
      rcases m.handleRequest_cases published now c A sid with
        ⟨-, he⟩ | ⟨i, -, ⟨-, he⟩ | ⟨-, -, he⟩⟩ <;> rw [he] at ha
      · cases ha
      · cases ha
      · cases ha
        exact ⟨c, A, sid, i, rfl, rfl⟩
    | acceptance p i sid =>
      rcases m.handleAcceptance_cases published now p i sid with
        ⟨-, he⟩ | ⟨σ, -, ⟨-, he⟩ | ⟨-, he⟩⟩ <;> rw [he] at ha <;> cases ha
  | _ => cases h

end Node

/-! ### Assignment messages in flight -/

namespace Net

variable {s t : Net X n} {l : NetLabel X n} {sid : String}

/-- The assignment message waits in the channel of a node, or is on its way to one. -/
def InFlight (s : Net X n) (msg : AssignmentMessage) : Prop :=
  (∃ k, .broadcast (.assignment msg) ∈ (s.hosts k).queue) ∨
    ∃ p ∈ s.wire, p.content = .assignment msg

/-- A call of `assign_peer_indices` that makes an id again finds the assignments that are stored
under it, and no assignment message is put together by hand. -/
def CallsAgree (s : Net X n) : NetLabel X n → Prop
  | .act k (.assignPeerIndices now) =>
      ∀ session, (s.hosts k).node.sessions.lookup ((s.hosts k).node.newSessionId now) =
        some session → session.assignments = (s.hosts k).node.createAssignments
  | .act _ (.broadcast g) => g.assignmentMessage = none
  | _ => True

/-- In the step a node handles a Request for the assignments and publishes the acceptance of the
peer `p`. -/
def Answers (s : Net X n) (l : NetLabel X n) (p sid : String) (A : HashMap String ℕ) : Prop :=
  ∃ k source published now c i,
    s.nodeLabel k l = some (.receive source published now (.assignment (.request c A sid))) ∧
    ((s.hosts k).node.onMessage source published now
      (.assignment (.request c A sid))).published = some (.assignment (.acceptance p i sid))

theorem inFlight_of_nodeLabel {k : Fin n} {source : Option X.PeerId} {published : Bool}
    {now : UInt64} {msg : AssignmentMessage}
    (h : s.nodeLabel k l = some (.receive source published now (.assignment msg))) :
    s.InFlight msg := by
  rcases nodeLabel_eq_some h with ⟨a, -, he⟩ | ⟨i, _, _, ⟨_, _, content⟩, -, hp, -, he⟩
  · cases he
  · cases he
    exact .inr ⟨_, List.mem_of_getElem? hp, rfl⟩

/-- What is in flight after a step was so before, or an action has sent it, or a node has published
it in answer to a message. -/
theorem inFlight_of_step {msg : AssignmentMessage} (h : s.step l = some t) (hm : t.InFlight msg) :
    s.InFlight msg ∨
    (∃ k a r, l = .act k a ∧ (s.hosts k).node.act a = some r ∧
      .broadcast (.assignment msg) ∈ r.2) ∨
    ∃ k source published now g, s.nodeLabel k l = some (.receive source published now g) ∧
      ((s.hosts k).node.onMessage source published now g).published = some (.assignment msg) := by
  cases l with
  | act k a =>
    obtain ⟨r, hr, rfl⟩ := step_act_eq_some.1 h
    rcases hm with ⟨j, hj⟩ | hm
    · rw [hosts_setHost] at hj
      split_ifs at hj with hjk
      · rcases List.mem_append.1 hj with hj | hj
        · exact .inl (.inl ⟨k, hj⟩)
        · exact .inr (.inl ⟨k, a, r, rfl, hr, hj⟩)
      · exact .inl (.inl ⟨j, hj⟩)
    · exact .inl (.inr hm)
  | process k published =>
    obtain ⟨c, cs, hq, rfl⟩ := step_process_eq_some.1 h
    left
    rcases hm with ⟨j, hj⟩ | ⟨p, hp, hc⟩
    · rw [hosts_publish, hosts_setHost] at hj
      split_ifs at hj with hjk
      · exact .inl ⟨k, by rw [hq]; exact List.mem_cons_of_mem _ hj⟩
      · exact .inl ⟨j, hj⟩
    · rcases mem_publish.1 hp with hp | ⟨-, -, hg⟩
      · exact .inr ⟨p, hp, hc⟩
      · -- the command taken from the channel is the message itself
        have hmsg : c.assignmentMessage = some msg := by
          rw [← c.assignmentMessage_gossip (s.id k)]
          split_ifs at hg
          rw [hg, Option.bind_some, hc]
          rfl
        rw [NetworkCommand.assignmentMessage_eq_some.1 hmsg] at hq
        exact .inl ⟨k, by rw [hq]; exact List.mem_cons_self⟩
  | deliver i published now =>
    obtain ⟨p, hp, rfl⟩ := step_deliver_eq_some.1 h
    rcases hm with ⟨j, hj⟩ | ⟨q, hq, hc⟩
    · left
      refine .inl ⟨j, ?_⟩
      rw [deliver, hosts_publish, hosts_setHost] at hj
      split_ifs at hj with hjk
      · rw [hjk]
        exact hj
      · exact hj
    · rcases mem_publish.1 hq with hq | ⟨-, -, hg⟩
      · exact .inl (.inr ⟨q, List.mem_of_mem_eraseIdx hq, hc⟩)
      · refine .inr (.inr ⟨p.dest, some p.source, published, now, p.content, ?_, ?_⟩)
        · rw [nodeLabel, hp, Option.bind_some, if_pos rfl]
        · rw [← hc]
          exact hg

/-- Where calls agree, an action sends no assignment message but the Request of its call. -/
theorem CallsAgree.sends {k : Fin n} {a : Action X} {r : Node X × List (NetworkCommand X)}
    {msg : AssignmentMessage} (ha : s.CallsAgree (.act k a)) (h : (s.hosts k).node.act a = some r)
    (hm : .broadcast (.assignment msg) ∈ r.2) :
    ∃ now, a = .assignPeerIndices now ∧ msg = ((s.hosts k).node.assignPeerIndices now).2 := by
  rcases Node.act_sends h with ⟨φ, out, -, -, rfl⟩ | ⟨g, rfl, rfl⟩ | ⟨now, rfl, hr⟩ |
      ⟨p, msg', -, hr⟩ | ⟨-, hr⟩
  · simp at hm
  · obtain rfl : Gossip.assignment msg = g := by simpa using hm
    cases ha
  · rw [hr] at hm
    obtain rfl : msg = ((s.hosts k).node.assignPeerIndices now).2 := by simpa using hm
    exact ⟨now, rfl, rfl⟩
  · simp [hr] at hm
  · simp [hr] at hm

/-! ### The assignment of an id -/

/-- The id is one of the coordinator `c`, who stores the assignments `A` under it. -/
def Names (s : Net X n) (sid c : String) (A : HashMap String ℕ) : Prop :=
  ∃ k now session, (s.hosts k).node.newSessionId now = sid ∧ X.peerToString (s.id k) = c ∧
    (s.hosts k).node.sessions.lookup sid = some session ∧ session.assignments = A

/-- Every session stored and every Request in flight has the assignment its id names. -/
structure Named (s : Net X n) : Prop where
  distinct : Function.Injective s.id
  stored : ∀ k sid session, (s.hosts k).node.sessions.lookup sid = some session →
    s.Names sid session.coordinatorId session.assignments ∧
      session.totalNodes = session.assignments.entries.length
  requested : ∀ c A sid, s.InFlight (.request c A sid) → s.Names sid c A

/-- An id names at most one assignment. -/
theorem Names.unique (hX : X.ParsesPeers) (hs : Function.Injective s.id) {c c' : String}
    {A A' : HashMap String ℕ} (h : s.Names sid c A) (h' : s.Names sid c' A') :
    c = c' ∧ A = A' := by
  obtain ⟨k, now, σ, hsid, rfl, hσ, rfl⟩ := h
  obtain ⟨k', now', σ', hsid', rfl, hσ', rfl⟩ := h'
  have hk : k = k' := hs ((Node.newSessionId_inj hX).1 (hsid.trans hsid'.symm)).1
  subst hk
  obtain rfl := Option.some.inj (hσ.symm.trans hσ')
  exact ⟨rfl, rfl⟩

theorem newSessionId_step (h : s.step l = some t) (k : Fin n) (now : UInt64) :
    (t.hosts k).node.newSessionId now = (s.hosts k).node.newSessionId now := by
  have hid : (t.hosts k).node.id = (s.hosts k).node.id := congrFun (step_id h) k
  rw [Node.newSessionId, Node.newSessionId, hid]

theorem nodeLabel_assignPeerIndices {k : Fin n} {now : UInt64}
    (h : s.nodeLabel k l = some (.act (.assignPeerIndices now))) :
    l = .act k (.assignPeerIndices now) := by
  rcases nodeLabel_eq_some h with ⟨a, rfl, he⟩ | ⟨_, _, _, _, -, -, -, he⟩ <;> cases he
  rfl

/-- An id keeps its assignment. -/
theorem Names.step {c : String} {A : HashMap String ℕ} (h : s.Names sid c A)
    (hl : s.CallsAgree l) (hs : s.step l = some t) : t.Names sid c A := by
  obtain ⟨k, now, σ, hsid, hc, hσ, hA⟩ := h
  have hkept : ∃ σ', (t.hosts k).node.sessions.lookup sid = some σ' ∧
      σ'.assignments = σ.assignments := by
    rcases step_nodeLabel hs k with ⟨-, he⟩ | ⟨nl, hnl, hstep⟩
    · exact ⟨σ, by rw [he]; exact hσ, rfl⟩
    · refine Node.lookup_of_step hstep hσ ?_
      rintro now' rfl rfl
      obtain rfl := nodeLabel_assignPeerIndices hnl
      exact hl σ hσ
  obtain ⟨σ', hσ', hA'⟩ := hkept
  refine ⟨k, now, σ', ?_, ?_, hσ', hA'.trans hA⟩
  · rw [newSessionId_step hs, hsid]
  · rw [step_id hs, hc]

/-- The call names its assignments. -/
theorem names_of_call {k : Fin n} {now : UInt64}
    (h : s.step (.act k (.assignPeerIndices now)) = some t) :
    t.Names ((s.hosts k).node.newSessionId now) (X.peerToString (s.id k))
      (s.hosts k).node.createAssignments := by
  obtain ⟨r, hr, he⟩ := step_act_eq_some.1 h
  obtain rfl := Option.some.inj hr
  have hlookup : (t.hosts k).node.sessions.lookup ((s.hosts k).node.newSessionId now) = some
      (.new now ((s.hosts k).node.newSessionId now) (X.peerToString (s.id k))
        (s.hosts k).node.createAssignments) := by
    rw [he, hosts_setHost, if_pos rfl]
    exact AList.lookup_insert _
  exact ⟨k, now, _, newSessionId_step h k now, by rw [step_id h], hlookup, rfl⟩

theorem Named.step (h : s.Named) (hl : s.CallsAgree l) (hs : s.step l = some t) : t.Named := by
  refine ⟨?_, ?_, ?_⟩
  · rw [step_id hs]
    exact h.distinct
  · intro k sid σ hσ
    rcases step_nodeLabel hs k with ⟨-, he⟩ | ⟨nl, hnl, hstep⟩
    · rw [he] at hσ
      exact (h.stored k sid σ hσ).imp_left fun hn => hn.step hl hs
    · cases Node.storedBy_of_step hstep hσ with
      | kept hσ => exact (h.stored k sid σ hσ).imp_left fun hn => hn.step hl hs
      | counted source published now p i hnl' σ₀ hσ₀ hacc =>
        subst hacc
        exact (h.stored k sid σ₀ hσ₀).imp_left fun hn => hn.step hl hs
      | called now hnl' hsid hnew =>
        subst hnl' hsid hnew
        obtain rfl := nodeLabel_assignPeerIndices hnl
        exact ⟨names_of_call hs, rfl⟩
      | adopted source published now c A hnl' hnew =>
        subst hnl' hnew
        exact ⟨(h.requested c A sid (inFlight_of_nodeLabel hnl)).step hl hs, rfl⟩
  · intro c A sid hm
    rcases inFlight_of_step hs hm with hm | ⟨k, a, r, rfl, hr, hsent⟩ |
        ⟨k, source, published, now, g, -, hpublished⟩
    · exact (h.requested c A sid hm).step hl hs
    · obtain ⟨now, rfl, he⟩ := hl.sends hr hsent
      cases he
      exact names_of_call hs
    · obtain ⟨_, _, _, _, -, he⟩ := Node.onMessage_published_eq_some hpublished
      cases he

theorem named_of_init (h : (netMachine X n).init s) : s.Named := by
  obtain ⟨ids, hids, rfl⟩ := h
  refine ⟨hids, ?_, ?_⟩
  · rintro k sid σ hσ
    cases hσ
  · rintro c A sid (⟨k, hk⟩ | ⟨p, hp, -⟩)
    · cases hk
    · cases hp

/-! ### Acceptances -/

/-- An acceptance of the peer `p` for the session has been counted or is in flight. -/
def Accepted (s : Net X n) (p sid : String) : Prop :=
  (∃ k session, (s.hosts k).node.sessions.lookup sid = some session ∧
    p ∈ session.acceptances) ∨ ∃ i, s.InFlight (.acceptance p i sid)

/-- A step that brings up an acceptance answers a Request with it. -/
theorem accepted_of_step {p : String} (hl : s.CallsAgree l) (hs : s.step l = some t)
    (h : t.Accepted p sid) : s.Accepted p sid ∨ ∃ A, s.Answers l p sid A := by
  rcases h with ⟨k, σ, hσ, hp⟩ | ⟨i, hm⟩
  · left
    rcases step_nodeLabel hs k with ⟨-, he⟩ | ⟨nl, hnl, hstep⟩
    · rw [he] at hσ
      exact .inl ⟨k, σ, hσ, hp⟩
    · cases Node.storedBy_of_step hstep hσ with
      | kept hσ => exact .inl ⟨k, σ, hσ, hp⟩
      | counted source published now q i hnl' σ₀ hσ₀ hacc =>
        subst hnl' hacc
        rcases SessionInfo.mem_accept.1 hp with rfl | hp
        · exact .inr ⟨i, inFlight_of_nodeLabel hnl⟩
        · exact .inl ⟨k, σ₀, hσ₀, hp⟩
      | called now _ _ hnew | adopted source published now c A _ hnew =>
        subst hnew
        exact absurd hp (AList.notMem_empty p)
  · rcases inFlight_of_step hs hm with hm | ⟨k, a, r, rfl, hr, hsent⟩ |
        ⟨k, source, published, now, g, hnl, hpublished⟩
    · exact .inl (.inr ⟨i, hm⟩)
    · obtain ⟨now, rfl, he⟩ := hl.sends hr hsent
      cases he
    · obtain ⟨c, A, sid', j, rfl, he⟩ := Node.onMessage_published_eq_some hpublished
      cases he
      exact .inr ⟨A, k, source, published, now, c, i, hnl, hpublished⟩

/-! ### What an id names along a run -/

/-- Any two nodes that store a session under the same id store the same assignment. -/
def SessionsAgree (s : Net X n) : Prop :=
  ∀ j k sid session session', (s.hosts j).node.sessions.lookup sid = some session →
    (s.hosts k).node.sessions.lookup sid = some session' →
      session.assignments = session'.assignments ∧
        session.coordinatorId = session'.coordinatorId ∧ session.totalNodes = session'.totalNodes

/-- A node that installs an orchestrator for a session id installs that of the session it stores. -/
def InstallsStored (s : Net X n) : Prop :=
  ∀ l t k source published now msg, s.step l = some t →
    s.nodeLabel k l = some (.receive source published now (.assignment msg)) →
    source ≠ some (s.id k) → (s.hosts k).node.Installs published msg →
      ∃ session, (t.hosts k).node.sessions.lookup msg.sessionId = some session ∧
        (t.hosts k).node.mpcOrchestrator = some ⟨.ofAssignments (s.id k) session.assignments, []⟩

theorem Named.sessionsAgree (hX : X.ParsesPeers) (h : s.Named) : s.SessionsAgree := by
  intro j k sid σ σ' hσ hσ'
  obtain ⟨hn, htotal⟩ := h.stored j sid σ hσ
  obtain ⟨hn', htotal'⟩ := h.stored k sid σ' hσ'
  obtain ⟨hc, hA⟩ := hn.unique hX h.distinct hn'
  exact ⟨hA, hc, by rw [htotal, htotal', hA]⟩

theorem callsAgree_of_receive {k : Fin n} {source : Option X.PeerId} {published : Bool}
    {now : UInt64} {g : Gossip X} (h : s.nodeLabel k l = some (.receive source published now g)) :
    s.CallsAgree l := by
  rcases nodeLabel_eq_some h with ⟨a, -, he⟩ | ⟨_, _, _, _, rfl, -⟩
  · cases he
  · trivial

theorem Named.installsStored (hX : X.ParsesPeers) (h : s.Named) : s.InstallsStored := by
  intro l t k source published now msg hs hnl hsource hinst
  have hl := callsAgree_of_receive hnl
  have ht := h.step hl hs
  -- what the node installs is what the message is about, and this is what the id names
  have hnamed : ∃ c A, (s.hosts k).node.assignmentsOf msg = some A ∧ s.Names msg.sessionId c A := by
    cases msg with
    | request c A sid => exact ⟨c, A, rfl, h.requested c A sid (inFlight_of_nodeLabel hnl)⟩
    | acceptance p i sid =>
      obtain ⟨σ, hσ, -⟩ := hinst
      exact ⟨_, _, by rw [Node.assignmentsOf, hσ]; rfl, (h.stored k sid σ hσ).1⟩
  obtain ⟨c, A, hA, hname⟩ := hnamed
  obtain ⟨m, hm, hslot⟩ :=
    Node.step_of_installsFor ⟨source, published, now, msg, rfl, hsource, hinst, hA⟩
  have hnode : (t.hosts k).node = m := by
    rcases step_nodeLabel hs k with ⟨hnone, -⟩ | ⟨nl, hnl', hstep⟩
    · rw [hnl] at hnone
      cases hnone
    · obtain rfl := Option.some.inj (hnl.symm.trans hnl')
      exact Option.some.inj (hstep.symm.trans hm)
  obtain ⟨σ, hσ, -⟩ := Node.session_of_installs hinst now
  have hstored : (t.hosts k).node.sessions.lookup msg.sessionId = some σ := by
    have hother : source ≠ some (s.hosts k).node.id := hsource
    rw [hnode, ← Option.some.inj hm, Node.onMessage, if_neg hother]
    exact hσ
  obtain ⟨-, rfl⟩ :=
    (hname.step hl hs).unique hX ht.distinct (ht.stored k msg.sessionId σ hstored).1
  exact ⟨σ, hstored, by rw [hnode]; exact hslot⟩

end Net

open Net

/-- In a run whose calls agree, a session id names one assignment: the nodes that store a session
under it store the same, what they install for it is the orchestrator of what they store, and every
acceptance they count is the answer to a Request for it. -/
theorem session_names_one_assignment (hX : X.ParsesPeers) {s t : Net X n} {ls : List (NetLabel X n)}
    (hs : (netMachine X n).init s) (hagree : (netMachine X n).Meets CallsAgree s ls)
    (hr : (netMachine X n).run s ls = some t) :
    t.SessionsAgree ∧ t.InstallsStored ∧
      ∀ k sid session p, (t.hosts k).node.sessions.lookup sid = some session →
        p ∈ session.acceptances → ∃ pre l post u, ls = pre ++ l :: post ∧
          (netMachine X n).run s pre = some u ∧ u.Answers l p sid session.assignments := by
  have hnamed : ∀ {u v : Net X n} {ms : List (NetLabel X n)}, u.Named →
      (netMachine X n).Meets CallsAgree u ms → (netMachine X n).run u ms = some v → v.Named :=
    Machine.run_preserves_of_meets fun _ _ _ h hl hstep => h.step hl hstep
  have hs' := named_of_init hs
  have ht := hnamed hs' hagree hr
  refine ⟨ht.sessionsAgree hX, ht.installsStored hX, ?_⟩
  intro k sid σ p hσ hp
  have horigin := Machine.run_origin_of_meets (M := netMachine X n)
    (K := fun _ => True) (P := fun u => u.Accepted p sid) (H := CallsAgree)
    (C := fun u l => ∃ A, u.Answers l p sid A) (fun _ _ _ _ _ _ => trivial)
    (fun _ _ _ _ hl hstep h => accepted_of_step hl hstep h) trivial hagree hr
    (.inl ⟨k, σ, hσ, hp⟩)
  rcases horigin with (⟨j, σ', hσ', -⟩ | ⟨i, hm⟩) | ⟨pre, l, post, u, rfl, hu, A, hanswers⟩
  · obtain ⟨ids, -, rfl⟩ := hs
    cases hσ'
  · obtain ⟨ids, -, rfl⟩ := hs
    rcases hm with ⟨j, hj⟩ | ⟨q, hq, -⟩
    · cases hj
    · cases hq
  · refine ⟨pre, l, post, u, rfl, hu, ?_⟩
    have hu' := hnamed hs' hagree.left hu
    obtain ⟨j, source, published, now, c, i, hnl, hpublished⟩ := hanswers
    have hname := hu'.requested c A sid (inFlight_of_nodeLabel hnl)
    -- the assignments the Request carries are still those of the id at the end
    have hrest : (netMachine X n).run u (l :: post) = some t := by
      obtain ⟨u', hu'', hrest⟩ := Machine.run_append_eq_some.1 hr
      obtain rfl := Option.some.inj (hu.symm.trans hu'')
      exact hrest
    have hlast := Machine.run_preserves_of_meets (M := netMachine X n)
      (I := fun v => v.Names sid c A) (fun _ _ _ h hl hstep => h.step hl hstep) hname
      (hagree.right hu) hrest
    obtain ⟨-, rfl⟩ := hlast.unique hX ht.distinct (ht.stored k sid σ hσ).1
    exact ⟨j, source, published, now, c, i, hnl, hpublished⟩

/-! ### Two calls in one second -/

namespace SecondCallRun

open ThreeNodes

/-- The node `a` assigns indices to `b` and `c`, and `b` accepts. Then `b` reconnects, and `a`
assigns indices again in the same second, to `c` and `b`. -/
def labels : List (NetLabel .plain 3) :=
  [.act a (.identify "b"), .act a (.identify "c"), .act a (.assignPeerIndices 5), .process a true,
    .deliver 0 true 5, .act a (.connectionClosed "b"), .act a (.identify "b"),
    .act a (.assignPeerIndices 5), .process a true]

/-- The session of the first call. -/
def first : HashMap String ℕ := .ofEntries [("a", 0), ("b", 1), ("c", 2)]

/-- The session of the second call. -/
def second : HashMap String ℕ := .ofEntries [("a", 0), ("c", 1), ("b", 2)]

/-- The index a node has in an orchestrator. -/
def indexIn (inst : Instance .plain) (p : String) : Option PartyIndex :=
  (inst.orch.partyAssignments : HashMap Platform.plain.PeerId PartyIndex).lookup p

end SecondCallRun

open SecondCallRun ThreeNodes in
/-- Two calls in one second that find the peers in another order: the sessions of `a` and `b`
differ, and `b` installs an orchestrator for the assignments of the second, in which it has another
index, while it stores those of the first. -/
theorem same_second_calls_disagree : ∃ w : Net .plain 3, (netMachine .plain 3).init start ∧
    (netMachine .plain 3).run start labels = some w ∧ ¬ w.SessionsAgree ∧ ¬ w.InstallsStored := by
  have h : ∃ (w v : Net .plain 3) (inst : Instance .plain),
      (netMachine .plain 3).run start labels = some w ∧
      (w.hosts a).node.sessions.lookup "a-5" = some (.new 5 "a-5" "a" second) ∧
      (w.hosts b).node.sessions.lookup "a-5" = some (.new 5 "a-5" "a" first) ∧
      (w.hosts b).node.id = "b" ∧
      w.nodeLabel b (.deliver 3 true 5) =
        some (.receive (some "a") true 5 (.assignment (.request "a" second "a-5"))) ∧
      w.step (.deliver 3 true 5) = some v ∧
      (v.hosts b).node.sessions.lookup "a-5" = some (.new 5 "a-5" "a" first) ∧
      (v.hosts b).node.mpcOrchestrator = some inst ∧ indexIn inst "b" = some 2 :=
    ⟨_, _, _, rfl, rfl, rfl, rfl, rfl, rfl, rfl, rfl, rfl⟩
  obtain ⟨w, v, inst, hw, hwa, hwb, hid, hlabel, hv, hvb, hslot, hindex⟩ := h
  refine ⟨w, ⟨ids, ids_injective, rfl⟩, hw, ?_, ?_⟩
  · intro hagree
    have hassignments : second = first := (hagree a b "a-5" _ _ hwa hwb).1
    have hb := congrArg (fun A : HashMap String ℕ => A.lookup "b") hassignments
    exact absurd hb (by decide)
  · intro hinstalls
    have hsource : (some "a" : Option String) ≠ some (w.id b) := by
      rw [Net.id, hid]
      exact fun he => absurd (Option.some.inj he) (by decide : ("a" : String) ≠ "b")
    have hinst : (w.hosts b).node.Installs true (.request "a" second "a-5") := by
      rw [Node.Installs, hid]
      decide
    obtain ⟨session, hsession, hslot'⟩ :=
      hinstalls _ v b (some "a") true 5 _ hv hlabel hsource hinst
    obtain rfl := Option.some.inj (hvb.symm.trans hsession)
    obtain rfl := Option.some.inj (hslot.symm.trans hslot')
    rw [Net.id, hid] at hindex
    exact absurd hindex (by decide)

namespace NamedRun

open ThreeNodes

/-- The acceptance of `b` is counted, and a second later the node `a` assigns the indices again. -/
def labels : List (NetLabel .plain 3) :=
  assign ++ [.deliver 0 true 5, .act a (.assignPeerIndices 6)]

end NamedRun

open NamedRun ThreeNodes in
/-- The acceptance `a` has counted answers the assignments it stores. -/
theorem counted_acceptance_answers : ∃ t : Net .plain 3,
    (netMachine .plain 3).run start labels = some t ∧ t.SessionsAgree ∧ t.InstallsStored ∧
    ∃ session, (t.hosts a).node.sessions.lookup "a-5" = some session ∧
      ∃ pre l post u, labels = pre ++ l :: post ∧ (netMachine .plain 3).run start pre = some u ∧
        u.Answers l "b" "a-5" session.assignments := by
  have h : ∃ (t : Net .plain 3) (session : SessionInfo),
      (netMachine .plain 3).Meets CallsAgree start labels ∧
      (netMachine .plain 3).run start labels = some t ∧
      (t.hosts a).node.sessions.lookup "a-5" = some session ∧ "b" ∈ session.acceptances := by
    refine ⟨_, _, .cons trivial rfl (.cons trivial rfl (.cons ?_ rfl (.cons trivial rfl
      (.cons trivial rfl (.cons trivial rfl (.cons trivial rfl (.cons ?_ rfl trivial))))))),
      rfl, rfl, ?_⟩
    · rintro session ⟨⟩
    · rintro session ⟨⟩
    · decide
  obtain ⟨t, session, hmeets, ht, hsession, hb⟩ := h
  obtain ⟨hagree, hinstalls, hanswers⟩ := session_names_one_assignment
    Platform.plain_lawful.parsesPeers ⟨ids, ids_injective, rfl⟩ hmeets ht
  exact ⟨t, ht, hagree, hinstalls, session, hsession, hanswers a "a-5" session "b" hsession hb⟩

end P2pMpc
