import P2pMpc.Installed

/-!
# The peers and their connections

The event loop lists a peer and counts it when it has identified itself, and takes it off the list
and off the counter when a connection to it closes. Peers may have several connections, and a
connection may close before its peer has identified itself. The counter goes wrong when the peer of
a closing connection is not on the list, and the list when the peer has another connection left. The
exported gauge is set to the counter when a connection opens or closes, and is behind it from the
identification of a new peer until then. Nothing else goes wrong.
-/

namespace P2pMpc

open StateMachine

variable {X : Platform}

/-- The event loop with what the swarm knows: the number of open connections to each peer, and
whether the peer has identified itself since it had none. `connectedPeers` is the gauge
`CONNECTED_PEERS`. -/
structure Swarm (X : Platform) where
  node : Node X
  connectedPeers : ℕ
  connections : X.PeerId → ℕ
  identified : X.PeerId → Bool

/-- The swarm events that the loop acts on. -/
inductive SwarmEvent (X : Platform)
  | connectionEstablished (peer : X.PeerId)
  | identifyReceived (peer : X.PeerId)
  | connectionClosed (peer : X.PeerId)

/-- `have_sufficient_peers`. -/
def Node.haveSufficientPeers (n : Node X) (target : ℕ) : Bool := n.peers ≥ target

namespace Node

variable {n : Node X} {peer : X.PeerId}

theorem mem_onIdentify {p : X.PeerId} (hp : p ≠ n.id) :
    p ∈ (n.onIdentify peer).peerList ↔ p = peer ∨ p ∈ n.peerList := by
  unfold onIdentify
  split_ifs with hid hmem
  · simp [show p ≠ peer from fun he => hp (he.trans hid)]
  · constructor
    · exact .inr
    · rintro (rfl | hl)
      · exact hmem
      · exact hl
  · simp [or_comm]

theorem id_onIdentify : (n.onIdentify peer).id = n.id := by
  unfold onIdentify
  split_ifs <;> rfl

theorem mem_onConnectionClosed {p : X.PeerId} :
    p ∈ (n.onConnectionClosed peer).peerList ↔ p ∈ n.peerList ∧ p ≠ peer := by
  simp [onConnectionClosed]

/-- A closing connection takes one peer off the list, or none. -/
theorem length_onConnectionClosed (h : n.peerList.Nodup) :
    (n.onConnectionClosed peer).peerList.length =
      if peer ∈ n.peerList then n.peerList.length - 1 else n.peerList.length := by
  show (n.peerList.filter (· ≠ peer)).length = _
  split_ifs with hmem
  · have herase : n.peerList.filter (· ≠ peer) = n.peerList.erase peer := by
      rw [h.erase_eq_filter]
      exact List.filter_congr fun p _ => Bool.eq_iff_iff.2 (by simp)
    rw [herase]
    exact List.length_erase_of_mem hmem
  · rw [List.filter_eq_self.2]
    intro p hp
    simp only [decide_eq_true_eq]
    rintro rfl
    exact hmem hp

end Node

namespace Swarm

/-- A node without connections. -/
def new (id : X.PeerId) : Swarm X where
  node := .new id
  connectedPeers := 0
  connections _ := 0
  identified _ := false

/-- An event and its handling. Only a connection that is open closes, and only over one does a peer
identify itself. -/
def step (s : Swarm X) : SwarmEvent X → Option (Swarm X)
  | .connectionEstablished peer => some
      { s with
        connectedPeers := s.node.peers
        connections := Function.update s.connections peer (s.connections peer + 1) }
  | .identifyReceived peer =>
      if s.connections peer = 0 then none
      else some
        { s with
          node := s.node.onIdentify peer
          identified := Function.update s.identified peer true }
  | .connectionClosed peer =>
      if s.connections peer = 0 then none
      else some
        { node := s.node.onConnectionClosed peer
          connectedPeers := (s.node.onConnectionClosed peer).peers
          connections := Function.update s.connections peer (s.connections peer - 1)
          identified := Function.update s.identified peer
            (s.identified peer && s.connections peer ≠ 1) }

end Swarm

def swarmMachine (X : Platform) : Machine (Swarm X) (SwarmEvent X) where
  init s := ∃ id, s = .new id
  step := Swarm.step

namespace Swarm

variable {s t : Swarm X} {e : SwarmEvent X} {peer : X.PeerId}

theorem step_identifyReceived_eq_some : s.step (.identifyReceived peer) = some t ↔
    0 < s.connections peer ∧ t =
      { s with
        node := s.node.onIdentify peer
        identified := Function.update s.identified peer true } := by
  rw [step, Option.ite_none_left_eq_some, Nat.pos_iff_ne_zero, eq_comm (a := t)]
  simp

theorem step_connectionClosed_eq_some : s.step (.connectionClosed peer) = some t ↔
    0 < s.connections peer ∧ t =
      { node := s.node.onConnectionClosed peer
        connectedPeers := (s.node.onConnectionClosed peer).peers
        connections := Function.update s.connections peer (s.connections peer - 1)
        identified := Function.update s.identified peer
          (s.identified peer && s.connections peer ≠ 1) } := by
  rw [step, Option.ite_none_left_eq_some, Nat.pos_iff_ne_zero, eq_comm (a := t)]
  simp

/-- A swarm event is a step of the node, or passes it by. -/
theorem step_node (h : s.step e = some t) :
    t.node = s.node ∨ ∃ a, s.node.step (.act a) = some t.node := by
  cases e with
  | connectionEstablished peer =>
    cases h
    exact .inl rfl
  | identifyReceived peer =>
    obtain ⟨-, rfl⟩ := step_identifyReceived_eq_some.1 h
    exact .inr ⟨.identify peer, rfl⟩
  | connectionClosed peer =>
    obtain ⟨-, rfl⟩ := step_connectionClosed_eq_some.1 h
    exact .inr ⟨.connectionClosed peer, rfl⟩

/-- The list stays free of repetitions and of the node itself. -/
theorem step_peersDistinct (hs : s.node.PeersDistinct) (h : s.step e = some t) :
    t.node.PeersDistinct := by
  rcases step_node h with he | ⟨a, ha⟩
  · rw [he]
    exact hs
  · exact hs.step ha

/-! ### The counter -/

/-- The counter is the length of the list. -/
def Counts (s : Swarm X) : Prop := s.node.peers = s.node.peerList.length

/-- Where a connection closes, its peer is listed or nobody is. -/
def ClosesListed (s : Swarm X) : SwarmEvent X → Prop
  | .connectionClosed peer => peer ∈ s.node.peerList ∨ s.node.peerList = []
  | _ => True

instance (s : Swarm X) (e : SwarmEvent X) : Decidable (s.ClosesListed e) :=
  match e with
  | .connectionClosed _ => inferInstanceAs (Decidable (_ ∨ _))
  | .connectionEstablished _ | .identifyReceived _ => .isTrue trivial

theorem Counts.haveSufficientPeers (h : s.Counts) (target : ℕ) :
    s.node.haveSufficientPeers target = true ↔ target ≤ s.node.peerList.length := by
  rw [Node.haveSufficientPeers, h, decide_eq_true_iff, ge_iff_le]

theorem counts_step_iff (hd : s.node.PeersDistinct) (hs : s.Counts) (h : s.step e = some t) :
    t.Counts ↔ s.ClosesListed e := by
  unfold Counts at hs ⊢
  cases e with
  | connectionEstablished peer =>
    cases h
    exact iff_of_true hs trivial
  | identifyReceived peer =>
    obtain ⟨-, rfl⟩ := step_identifyReceived_eq_some.1 h
    refine iff_of_true ?_ trivial
    unfold Node.onIdentify
    split_ifs
    · exact hs
    · exact hs
    · simp [hs]
  | connectionClosed peer =>
    obtain ⟨-, rfl⟩ := step_connectionClosed_eq_some.1 h
    have hpeers : (s.node.onConnectionClosed peer).peers = s.node.peers - 1 := rfl
    simp only [ClosesListed, hpeers, hs, Node.length_onConnectionClosed (List.nodup_cons.1 hd).2,
      ← List.length_eq_zero_iff]
    split_ifs with hmem
    · simp [hmem]
    · simp only [hmem, false_or]
      omega

/-! ### The gauge -/

/-- The gauge shows the counter. -/
def ShowsCounter (s : Swarm X) : Prop := s.connectedPeers = s.node.peers

/-- Where a peer identifies itself, it is listed, or it is the node. -/
def IdentifiesListed (s : Swarm X) : SwarmEvent X → Prop
  | .identifyReceived peer => peer = s.node.id ∨ peer ∈ s.node.peerList
  | _ => True

/-- An opening or closing connection sets the gauge; an identification does not, and counts a new
peer. -/
theorem showsCounter_step_iff (hs : s.ShowsCounter) (h : s.step e = some t) :
    t.ShowsCounter ↔ s.IdentifiesListed e := by
  unfold ShowsCounter at hs ⊢
  cases e with
  | connectionEstablished peer =>
    cases h
    exact iff_of_true rfl trivial
  | identifyReceived peer =>
    obtain ⟨-, rfl⟩ := step_identifyReceived_eq_some.1 h
    simp only [IdentifiesListed, Node.onIdentify]
    split_ifs with hid hmem
    · simp [hs, hid]
    · simp [hs, hmem]
    · simp [hs, hid, hmem]
  | connectionClosed peer =>
    obtain ⟨-, rfl⟩ := step_connectionClosed_eq_some.1 h
    exact iff_of_true rfl trivial

/-! ### The list -/

/-- The peers on the list are those that are connected and have identified themselves, and no such
peer is left out by `assign_peer_indices`. -/
def ListsConnected (s : Swarm X) : Prop :=
  (∀ p, p ≠ s.node.id → (p ∈ s.node.peerList ↔ 0 < s.connections p ∧ s.identified p = true)) ∧
    ∀ p, 0 < s.connections p → s.identified p = true →
      X.peerToString p ∈ s.node.createAssignments

/-- Where a connection closes, it is the last one, or its peer has not identified itself. -/
def ClosesLast (s : Swarm X) : SwarmEvent X → Prop
  | .connectionClosed peer =>
      peer = s.node.id ∨ s.connections peer ≤ 1 ∨ s.identified peer = false
  | _ => True

instance (s : Swarm X) (e : SwarmEvent X) : Decidable (s.ClosesLast e) :=
  match e with
  | .connectionClosed _ => inferInstanceAs (Decidable (_ ∨ _ ∨ _))
  | .connectionEstablished _ | .identifyReceived _ => .isTrue trivial

/-- Without a connection there is no identification. -/
def Forgets (s : Swarm X) : Prop := ∀ p, s.connections p = 0 → s.identified p = false

/-- It is enough that the list is right: the assignments are made from it. -/
theorem listsConnected_iff : s.ListsConnected ↔ ∀ p, p ≠ s.node.id →
    (p ∈ s.node.peerList ↔ 0 < s.connections p ∧ s.identified p = true) := by
  refine ⟨fun h => h.1, fun h => ⟨h, fun p hc hi => ?_⟩⟩
  apply Node.mem_createAssignments.2
  by_cases hp : p = s.node.id
  · rw [hp]
    exact List.mem_map_of_mem List.mem_cons_self
  · exact List.mem_map_of_mem (List.mem_cons_of_mem _ ((h p hp).2 ⟨hc, hi⟩))

theorem Forgets.step (hs : s.Forgets) (h : s.step e = some t) : t.Forgets := by
  intro p hp
  cases e with
  | connectionEstablished peer =>
    cases h
    simp only [Function.update_apply] at hp
    split_ifs at hp
    exact hs p hp
  | identifyReceived peer =>
    obtain ⟨hopen, rfl⟩ := step_identifyReceived_eq_some.1 h
    have hne : p ≠ peer := by
      rintro rfl
      exact hopen.ne' hp
    simp only [Function.update_of_ne hne]
    exact hs p hp
  | connectionClosed peer =>
    obtain ⟨hopen, rfl⟩ := step_connectionClosed_eq_some.1 h
    simp only [Function.update_apply] at hp ⊢
    split_ifs at hp ⊢ with hpeer
    · simp [show s.connections peer = 1 by omega]
    · exact hs p hp

theorem listsConnected_step_iff (hf : s.Forgets) (hs : s.ListsConnected) (h : s.step e = some t) :
    t.ListsConnected ↔ s.ClosesLast e := by
  rw [listsConnected_iff] at hs ⊢
  cases e with
  | connectionEstablished peer =>
    cases h
    refine iff_of_true (fun p hp => (hs p hp).trans ?_) trivial
    simp only [Function.update_apply]
    split_ifs with hpeer
    · subst hpeer
      constructor
      · rintro ⟨-, hi⟩
        exact ⟨Nat.succ_pos _, hi⟩
      · rintro ⟨-, hi⟩
        refine ⟨Nat.pos_of_ne_zero fun h0 => ?_, hi⟩
        rw [hf p h0] at hi
        cases hi
    · rfl
  | identifyReceived peer =>
    obtain ⟨hopen, rfl⟩ := step_identifyReceived_eq_some.1 h
    refine iff_of_true (fun p hp => ?_) trivial
    simp only [Node.id_onIdentify] at hp
    simp only [Node.mem_onIdentify hp, hs p hp, Function.update_apply]
    split_ifs with hpeer
    · subst hpeer
      simp [hopen]
    · simp [hpeer]
  | connectionClosed peer =>
    obtain ⟨hopen, rfl⟩ := step_connectionClosed_eq_some.1 h
    constructor
    · intro hall
      by_cases hid : peer = s.node.id
      · exact .inl hid
      · have hpeer := hall peer hid
        simp only [Node.mem_onConnectionClosed, Function.update_self] at hpeer
        refine .inr ?_
        by_contra hleft
        rw [not_or, Bool.not_eq_false] at hleft
        have hone : s.connections peer ≠ 1 := by omega
        exact (hpeer.2 ⟨by omega, by simp [hleft.2, hone]⟩).2 rfl
    · intro hlast p hp
      simp only [Node.mem_onConnectionClosed, hs p hp, Function.update_apply]
      split_ifs with hpeer
      · subst hpeer
        rcases hlast with hid | hle | hi
        · exact absurd hid hp
        · simp [show s.connections p = 1 by omega]
        · simp [hi]
      · simp [hpeer]

end Swarm

open Swarm

/-- In every run of swarm events: the counter is always the length of the list exactly if wherever a
connection closes its peer is listed, or nobody is. -/
theorem peer_counter_iff {s t : Swarm X} {es : List (SwarmEvent X)} (h₀ : (swarmMachine X).init s)
    (h : (swarmMachine X).run s es = some t) :
    (∀ pre u, pre <+: es → (swarmMachine X).run s pre = some u → u.Counts) ↔
      (swarmMachine X).Meets ClosesListed s es := by
  obtain ⟨id, rfl⟩ := h₀
  have hall := Machine.run_forall_iff_meets (M := swarmMachine X) (I := Counts)
    (K := fun s => s.node.PeersDistinct) (G := ClosesListed) (H := fun _ _ => True)
    (fun _ _ _ hd _ hstep => step_peersDistinct hd hstep)
    (fun _ _ _ hd _ hs hstep => counts_step_iff hd hs hstep)
    (by simp [Swarm.new, Node.PeersDistinct, Node.new])
    (Machine.meets_of_forall (fun _ _ => trivial) _ _) h
  rw [hall]
  exact and_iff_right rfl

/-- A second peer connects and disconnects before it has identified itself. -/
def unidentifiedRun : List (SwarmEvent .plain) :=
  [.connectionEstablished "b", .identifyReceived "b", .connectionEstablished "c",
    .connectionClosed "c"]

/-- The counter then is 0, though `b` is listed. -/
theorem unidentified_uncounts : ∃ t : Swarm .plain,
    (swarmMachine .plain).run (.new "a") unidentifiedRun = some t ∧ t.node.peerList = ["b"] ∧
      t.node.peers = 0 ∧ t.node.haveSufficientPeers 1 = false ∧ ¬ t.Counts := by
  have hrun : ∃ t : Swarm .plain, (swarmMachine .plain).run (.new "a") unidentifiedRun = some t ∧
      t.node.peerList = ["b"] ∧ t.node.peers = 0 := ⟨_, rfl, rfl, rfl⟩
  obtain ⟨t, ht, hlist, hpeers⟩ := hrun
  refine ⟨t, ht, hlist, hpeers, ?_, ?_⟩
  · simp [Node.haveSufficientPeers, hpeers]
  · simp [Counts, hlist, hpeers]

/-- The same peer with an identification before its connection closes. -/
def identifiedRun : List (SwarmEvent .plain) :=
  [.connectionEstablished "b", .identifyReceived "b", .connectionEstablished "c",
    .identifyReceived "c", .connectionClosed "c"]

/-- Then the counter is right. -/
theorem identified_counts : ∃ t : Swarm .plain,
    (swarmMachine .plain).run (.new "a") identifiedRun = some t ∧ t.Counts := by
  have hmeets : (swarmMachine .plain).Meets ClosesListed (.new "a") identifiedRun := by decide
  obtain ⟨t, ht⟩ : ∃ t, (swarmMachine .plain).run (.new "a") identifiedRun = some t := ⟨_, rfl⟩
  exact ⟨t, ht, (peer_counter_iff ⟨"a", rfl⟩ ht).2 hmeets _ _ List.prefix_rfl ht⟩

/-- In every run of swarm events: the gauge always shows the counter exactly if no peer identifies
itself that is not listed yet. -/
theorem gauge_shows_counter_iff {s t : Swarm X} {es : List (SwarmEvent X)}
    (h₀ : (swarmMachine X).init s) (h : (swarmMachine X).run s es = some t) :
    (∀ pre u, pre <+: es → (swarmMachine X).run s pre = some u → u.ShowsCounter) ↔
      (swarmMachine X).Meets IdentifiesListed s es := by
  obtain ⟨id, rfl⟩ := h₀
  have hall := Machine.run_forall_iff_meets (M := swarmMachine X) (I := ShowsCounter)
    (K := fun _ => True) (G := IdentifiesListed) (H := fun _ _ => True)
    (fun _ _ _ _ _ _ => trivial) (fun _ _ _ _ _ hs hstep => showsCounter_step_iff hs hstep)
    trivial (Machine.meets_of_forall (fun _ _ => trivial) _ _) h
  rw [hall]
  exact and_iff_right rfl

-- The first peer is listed and counted, and the gauge still shows none.
example : ((swarmMachine .plain).run (.new "a") [.connectionEstablished "b",
    .identifyReceived "b"]).map (fun s => (s.node.peerList, s.node.peers, s.connectedPeers)) =
      some (["b"], 1, 0) := rfl

/-- In every run of swarm events: the list always has exactly the other peers that are connected and
have identified themselves since they had no connection, and no such peer is left without an index,
exactly if every connection that closes is the last one to its peer or is to a peer that has not
identified itself. -/
theorem connected_peers_listed_iff {s t : Swarm X} {es : List (SwarmEvent X)}
    (h₀ : (swarmMachine X).init s) (h : (swarmMachine X).run s es = some t) :
    (∀ pre u, pre <+: es → (swarmMachine X).run s pre = some u → u.ListsConnected) ↔
      (swarmMachine X).Meets ClosesLast s es := by
  obtain ⟨id, rfl⟩ := h₀
  have hall := Machine.run_forall_iff_meets (M := swarmMachine X) (I := ListsConnected)
    (K := Forgets) (G := ClosesLast) (H := fun _ _ => True)
    (fun _ _ _ hf _ hstep => hf.step hstep)
    (fun _ _ _ hf _ hs hstep => listsConnected_step_iff hf hs hstep)
    (fun _ _ => rfl) (Machine.meets_of_forall (fun _ _ => trivial) _ _) h
  rw [hall]
  exact and_iff_right (listsConnected_iff.2 fun p _ => by simp [Swarm.new, Node.new])

/-- Two connections to one peer, of which one is closed. -/
def redundantRun : List (SwarmEvent .plain) :=
  [.connectionEstablished "b", .connectionEstablished "b", .identifyReceived "b",
    .connectionClosed "b"]

/-- The peer is still connected, but no longer on the list, and gets no index. -/
theorem redundant_close_unlists : ∃ t : Swarm .plain,
    (swarmMachine .plain).run (.new "a") redundantRun = some t ∧ t.connections "b" = 1 ∧
      t.identified "b" = true ∧ "b" ∉ t.node.peerList ∧ "b" ∉ t.node.createAssignments ∧
      ¬ t.ListsConnected := by
  have hrun : ∃ t : Swarm .plain, (swarmMachine .plain).run (.new "a") redundantRun = some t ∧
      t.connections "b" = 1 ∧ t.identified "b" = true ∧ t.node.peerList = [] ∧
      "b" ∉ t.node.createAssignments := ⟨_, rfl, by decide, by decide, rfl, by decide⟩
  obtain ⟨t, ht, hopen, hidentified, hlist, hassign⟩ := hrun
  refine ⟨t, ht, hopen, hidentified, ?_, hassign, fun h => ?_⟩
  · rw [hlist]
    exact List.not_mem_nil
  · exact hassign (h.2 "b" (by rw [hopen]; exact Nat.one_pos) hidentified)

/-- One connection after the other, and a peer that identifies itself twice. -/
def successiveRun : List (SwarmEvent .plain) :=
  [.connectionEstablished "b", .identifyReceived "b", .connectionClosed "b",
    .connectionEstablished "b", .identifyReceived "b", .identifyReceived "b"]

/-- Then the list is right. -/
theorem successive_connections_listed : ∃ t : Swarm .plain,
    (swarmMachine .plain).run (.new "a") successiveRun = some t ∧ t.ListsConnected := by
  have hmeets : (swarmMachine .plain).Meets ClosesLast (.new "a") successiveRun := by decide
  obtain ⟨t, ht⟩ : ∃ t, (swarmMachine .plain).run (.new "a") successiveRun = some t := ⟨_, rfl⟩
  exact ⟨t, ht, (connected_peers_listed_iff ⟨"a", rfl⟩ ht).2 hmeets _ _ List.prefix_rfl ht⟩

end P2pMpc
