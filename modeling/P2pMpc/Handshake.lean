import P2pMpc.Installed
import P2pMpc.Network

/-!
# A round of the handshake

A round is one call of `assign_peer_indices`: the coordinator broadcasts a Request, every assigned
node answers with an Acceptance to everybody, and the coordinator installs its own orchestrator
once it has counted an Acceptance of each. This file says what the messages and the sessions of a
round look like and what an event loop makes of such a message. A hash map is met in an arbitrary
order, so assignments are compared up to the order of their entries.
-/

namespace P2pMpc

open StateMachine

variable {X : Platform} {n : ℕ}

/-! ### The order of a hash map -/

section Order

variable {A B : HashMap String ℕ}

theorem parsedAssignments_perm (h : A.entries.Perm B.entries) :
    (parsedAssignments A : List (X.PeerId × PartyIndex)).Perm (parsedAssignments B) :=
  h.filterMap _

/-- The sorted participants do not depend on the order of the assignments. -/
theorem participants_of_perm (h : A.entries.Perm B.entries) (p q : X.PeerId) :
    (MPCOrchestrator.ofAssignments p A : MPCOrchestrator X).participants =
      (MPCOrchestrator.ofAssignments q B : MPCOrchestrator X).participants := by
  show ((parsedAssignments A).map Prod.fst).insertionSort (· ≤ ·) =
    ((parsedAssignments B).map Prod.fst).insertionSort (· ≤ ·)
  apply List.Perm.eq_of_sortedLE List.sortedLE_insertionSort List.sortedLE_insertionSort
  have hperm := (parsedAssignments_perm (X := X) h).map Prod.fst
  exact (List.perm_insertionSort _ _).trans (hperm.trans (List.perm_insertionSort _ _).symm)

/-- The party assignments do not depend on the order of the assignments, if no two keys parse to
the same peer. -/
theorem partyAssignments_of_perm (h : A.entries.Perm B.entries)
    (hB : ((parsedAssignments B : List (X.PeerId × PartyIndex)).map Prod.fst).Nodup)
    (p q : X.PeerId) :
    (MPCOrchestrator.ofAssignments p A : MPCOrchestrator X).partyAssignments.entries.Perm
      (MPCOrchestrator.ofAssignments q B : MPCOrchestrator X).partyAssignments.entries := by
  show (HashMap.ofEntries (parsedAssignments A)).entries.Perm
    (HashMap.ofEntries (parsedAssignments B)).entries
  have hperm := parsedAssignments_perm (X := X) h
  have hA := (hperm.map Prod.fst).nodup_iff.2 hB
  rw [HashMap.entries_ofEntries hA, HashMap.entries_ofEntries hB]
  exact ((List.reverse_perm _).trans (hperm.map _)).trans (List.reverse_perm _).symm

end Order

/-! ### Rounds -/

/-- One call of `assign_peer_indices` in a network: the host that makes it, the identities of the
hosts, and the session it creates. -/
structure Round (X : Platform) (n : ℕ) where
  coordinator : Fin n
  ids : Fin n → X.PeerId
  sessionId : String
  assignments : HashMap String ℕ
  peers : List X.PeerId

namespace Round

variable (r : Round X n)

def coordinatorId : String := X.peerToString (r.ids r.coordinator)

/-- What `assign_peer_indices` makes sure of. -/
structure Valid : Prop where
  ids_injective : Function.Injective r.ids
  peers_distinct : (r.ids r.coordinator :: r.peers).Nodup
  mem_assignments : ∀ p, p ∈ r.assignments ↔ p = r.coordinatorId ∨ p ∈ r.peers.map X.peerToString
  length_assignments : r.assignments.entries.length = r.peers.length + 1
  parsed : ((parsedAssignments r.assignments : List (X.PeerId × PartyIndex)).map Prod.fst).Nodup

/-- A host other than the coordinator that the round assigns an index to. -/
def Member (k : Fin n) : Prop := k ≠ r.coordinator ∧ r.ids k ∈ r.peers

/-- An Acceptance of the round by a host that `installed`, not by the host `k` itself. -/
def AcceptedBy (installed : Fin n → Prop) (k : Fin n) (peerId : String) : Prop :=
  ∃ j, r.Member j ∧ installed j ∧ j ≠ k ∧ peerId = X.peerToString (r.ids j)

/-- An assignment message of the round on its way to the host `k`. -/
def MessageTo (installed : Fin n → Prop) (k : Fin n) : AssignmentMessage → Prop
  | .request coordinatorId assignments sessionId =>
      coordinatorId = r.coordinatorId ∧ assignments.entries.Perm r.assignments.entries ∧
        sessionId = r.sessionId ∧ k ≠ r.coordinator
  | .acceptance peerId _ sessionId =>
      sessionId = r.sessionId ∧ r.AcceptedBy installed k peerId

/-- A session of the host `k` in the round. -/
structure SessionOf (installed : Fin n → Prop) (k : Fin n) (sessionId : String)
    (s : SessionInfo) : Prop where
  session : sessionId = r.sessionId
  assignments : s.assignments.entries.Perm r.assignments.entries
  totalNodes : s.totalNodes = r.peers.length + 1
  allTrue : ∀ e ∈ s.acceptances.entries, e.2 = true
  accepted : ∀ p ∈ s.acceptances, r.AcceptedBy installed k p

/-- An orchestrator with the participants and the party assignments of the round. -/
def Agreed (inst : Instance X) : Prop :=
  inst.orch.participants =
      (MPCOrchestrator.ofAssignments (r.ids r.coordinator) r.assignments : MPCOrchestrator
        X).participants ∧
    inst.orch.partyAssignments.entries.Perm
      (MPCOrchestrator.ofAssignments (r.ids r.coordinator) r.assignments : MPCOrchestrator
        X).partyAssignments.entries

/-- The session that `p`'s Acceptance is counted in has counted it. -/
def Counted (m : Node X) (p : X.PeerId) : Prop :=
  ∃ s, m.sessions.lookup r.sessionId = some s ∧ X.peerToString p ∈ s.acceptances

variable {r} {installed installed' : Fin n → Prop} {k : Fin n}

theorem AcceptedBy.mono (h : ∀ j, installed j → installed' j) {p : String}
    (hp : r.AcceptedBy installed k p) : r.AcceptedBy installed' k p := by
  obtain ⟨j, hj, hi, hne, he⟩ := hp
  exact ⟨j, hj, h j hi, hne, he⟩

theorem MessageTo.mono (h : ∀ j, installed j → installed' j) {msg : AssignmentMessage}
    (hm : r.MessageTo installed k msg) : r.MessageTo installed' k msg := by
  cases msg with
  | request => exact hm
  | acceptance => exact ⟨hm.1, hm.2.mono h⟩

theorem SessionOf.mono (h : ∀ j, installed j → installed' j) {sid : String} {s : SessionInfo}
    (hs : r.SessionOf installed k sid s) : r.SessionOf installed' k sid s :=
  { hs with accepted := fun p hp => (hs.accepted p hp).mono h }

theorem agreed_ofAssignments (hr : r.Valid) {A : HashMap String ℕ}
    (hA : A.entries.Perm r.assignments.entries) (p : X.PeerId) :
    r.Agreed ⟨.ofAssignments p A, []⟩ :=
  ⟨participants_of_perm hA p _, partyAssignments_of_perm hA hr.parsed p _⟩

theorem Agreed.of_roster {inst inst' : Instance X} (h : r.Agreed inst)
    (hroster : inst'.orch.roster = inst.orch.roster) : r.Agreed inst' := by
  obtain ⟨h1, h2, -⟩ : inst'.orch.participants = inst.orch.participants ∧
      inst'.orch.partyAssignments = inst.orch.partyAssignments ∧
      inst'.orch.localPeerId = inst.orch.localPeerId := by
    simpa [MPCOrchestrator.roster] using hroster
  unfold Agreed
  rw [h1, h2]
  exact h

/-! ### Counting Acceptances -/

/-- The Acceptances of a session name different peers of the round. -/
theorem SessionOf.keys_subset {sid : String} {s : SessionInfo}
    (h : r.SessionOf installed k sid s) : s.acceptances.keys ⊆ r.peers.map X.peerToString := by
  intro p hp
  obtain ⟨j, hj, -, -, rfl⟩ := h.accepted p (AList.mem_keys.2 hp)
  exact List.mem_map_of_mem hj.2

theorem SessionOf.allAccepted_iff {sid : String} {s : SessionInfo}
    (h : r.SessionOf installed k sid s) :
    s.allAccepted = true ↔ s.acceptances.entries.length = r.peers.length := by
  have hall : (s.acceptances.entries.all fun e => e.2) = true := by
    rw [List.all_eq_true]
    exact h.allTrue
  have hsub : usizeSub s.totalNodes 1 = r.peers.length := by
    rw [h.totalNodes]
    unfold usizeSub
    rw [if_pos (by omega)]
    omega
  unfold SessionInfo.allAccepted
  rw [hall, hsub, Bool.and_true, beq_iff_eq]

/-- The coordinator's session is complete only when every peer has accepted. -/
theorem SessionOf.complete {sid : String} {s : SessionInfo} (h : r.SessionOf installed k sid s)
    (hs : s.allAccepted = true) {p : X.PeerId} (hp : p ∈ r.peers) :
    X.peerToString p ∈ s.acceptances := by
  have hlen := h.allAccepted_iff.1 hs
  have hsubperm := List.subperm_of_subset s.acceptances.keys_nodup h.keys_subset
  have hperm := hsubperm.perm_of_length_le (by
    rw [List.length_map, ← hlen]
    exact (List.length_map _).ge)
  exact AList.mem_keys.2 (hperm.mem_iff.2 (List.mem_map_of_mem hp))

/-- A session of a member is never complete: its own Acceptance is not counted there. -/
theorem SessionOf.incomplete (hX : X.ParsesPeers) {sid : String} {s : SessionInfo}
    (hr : r.Valid) (h : r.SessionOf installed k sid s) (hk : r.Member k) :
    s.allAccepted = false := by
  apply Bool.eq_false_iff.2
  intro hs
  obtain ⟨j, -, -, hne, he⟩ := h.accepted _ (h.complete hs hk.2)
  exact hne (hr.ids_injective (hX.injective he)).symm

theorem SessionOf.accept {sid : String} {s : SessionInfo} (h : r.SessionOf installed k sid s)
    {p : String} (hp : r.AcceptedBy installed k p) : r.SessionOf installed k sid (s.accept p) where
  session := h.session
  assignments := h.assignments
  totalNodes := h.totalNodes
  allTrue := SessionInfo.all_accept h.allTrue p
  accepted := by
    intro q hq
    rcases SessionInfo.mem_accept.1 hq with rfl | hq
    · exact hp
    · exact h.accepted q hq

/-! ### What an event loop makes of a message of the round -/

section Handling

variable {m : Node X}

/-- The sessions of the node are sessions of the round. -/
def SessionsOf (r : Round X n) (installed : Fin n → Prop) (k : Fin n) (m : Node X) : Prop :=
  ∀ sid s, m.sessions.lookup sid = some s → r.SessionOf installed k sid s

theorem SessionsOf.adopt (hr : r.Valid) (h : r.SessionsOf installed k m) (now : UInt64)
    (coordinatorId : String) {A : HashMap String ℕ} (hA : A.entries.Perm r.assignments.entries) :
    r.SessionsOf installed k (m.adopt now coordinatorId A r.sessionId) := by
  intro sid s hs
  rcases Node.of_lookup_adopt hs with ⟨hsid, rfl⟩ | hs
  · refine ⟨hsid, hA, ?_, ?_, ?_⟩
    · show A.entries.length = r.peers.length + 1
      rw [hA.length_eq, hr.length_assignments]
    · intro e he
      cases he
    · intro p hp
      cases hp
  · exact h sid s hs

theorem SessionsOf.record (h : r.SessionsOf installed k m) {session : SessionInfo}
    (hs : r.SessionOf installed k r.sessionId session) :
    r.SessionsOf installed k (m.record r.sessionId session) := by
  intro sid s hlookup
  rcases Node.of_lookup_record hlookup with ⟨rfl, rfl⟩ | hlookup
  · exact hs
  · exact h sid s hlookup

/-- The node has installed an orchestrator for the assignments of the round in the place of the one
of `m`. -/
def Installed (r : Round X n) (m m' : Node X) : Prop :=
  ∃ A, A.entries.Perm r.assignments.entries ∧
    m'.mpcOrchestrator = some ⟨.ofAssignments m.id A, []⟩ ∧
    m'.retired = m.retired ++ m.mpcOrchestrator.toList

/-- The orchestrator of `m'` is that of `m`. -/
def SameSlot (m m' : Node X) : Prop :=
  m'.mpcOrchestrator = m.mpcOrchestrator ∧ m'.retired = m.retired

/-- A Request of the round is answered by a member that installs an orchestrator, or it only
reaches the sessions. -/
theorem handle_request (hX : X.ParsesPeers) (hr : r.Valid) (hid : m.id = r.ids k)
    (h : r.SessionsOf installed k m) {coordinatorId sid : String} {A : HashMap String ℕ}
    (hmsg : r.MessageTo installed k (.request coordinatorId A sid)) (published : Bool)
    (now : UInt64) {m' : Node X} {answer : Option AssignmentMessage}
    (he : m.handleAssignmentMessage published now (.request coordinatorId A sid) = (m', answer)) :
    r.SessionsOf installed k m' ∧
      ((answer = none ∧ SameSlot m m') ∨
        (r.Member k ∧ r.Installed m m' ∧
          ∃ i, answer = some (.acceptance (X.peerToString (r.ids k)) i r.sessionId))) := by
  obtain ⟨rfl, hA, rfl, hk⟩ := hmsg
  rcases m.handleRequest_cases published now r.coordinatorId A r.sessionId with
    ⟨-, he'⟩ | ⟨i, hi, ⟨-, he'⟩ | ⟨-, -, he'⟩⟩ <;> rw [he'] at he <;> cases he
  · exact ⟨h, .inl ⟨rfl, rfl, rfl⟩⟩
  · exact ⟨h.adopt hr now _ hA, .inl ⟨rfl, rfl, rfl⟩⟩
  · refine ⟨h.adopt hr now _ hA, .inr ⟨⟨hk, ?_⟩, ⟨A, hA, rfl, rfl⟩, i, by rw [hid]⟩⟩
    have hmem : X.peerToString (r.ids k) ∈ A := by
      rw [← hid]
      exact AList.lookup_isSome.1 (by simp [hi])
    rcases (hr.mem_assignments _).1 ((AList.mem_of_perm hA).1 hmem) with heq | hpeer
    · exact absurd (hr.ids_injective (hX.injective heq)) hk
    · obtain ⟨q, hq, heq⟩ := List.mem_map.1 hpeer
      rw [← hX.injective heq]
      exact hq

/-- An Acceptance of the round is counted; it makes the coordinator install its orchestrator when
every peer has been counted, and nobody else. -/
theorem handle_acceptance (hX : X.ParsesPeers) (hr : r.Valid) (hid : m.id = r.ids k)
    (hwf : m.WellFormed) (h : r.SessionsOf installed k m) {p sid : String} {i : ℕ}
    (hmsg : r.MessageTo installed k (.acceptance p i sid)) (published : Bool) (now : UInt64)
    {m' : Node X} {answer : Option AssignmentMessage}
    (he : m.handleAssignmentMessage published now (.acceptance p i sid) = (m', answer)) :
    answer = none ∧ r.SessionsOf installed k m' ∧
      (∀ q, r.Counted m' q → r.Counted m q ∨ X.peerToString q = p) ∧
      (SameSlot m m' ∨
        (k = r.coordinator ∧ r.Installed m m' ∧ ∀ q ∈ r.peers, r.Counted m' q)) := by
  obtain ⟨rfl, hp⟩ := hmsg
  have hcounted : ∀ s, m.sessions.lookup r.sessionId = some s → ∀ q,
      r.Counted (m.record r.sessionId (s.accept p)) q ↔
        X.peerToString q = p ∨ X.peerToString q ∈ s.acceptances := by
    intro s hs q
    have hlookup : (m.record r.sessionId (s.accept p)).sessions.lookup r.sessionId =
      some (s.accept p) := AList.lookup_insert _
    simp only [Counted, hlookup, Option.some.injEq, exists_eq_left', SessionInfo.mem_accept]
  rcases m.handleAcceptance_cases published now p i r.sessionId with
    ⟨hnone, he'⟩ | ⟨s, hs, ⟨ha, he'⟩ | ⟨ha, he'⟩⟩ <;> rw [he'] at he <;> cases he
  · exact ⟨rfl, h, fun q hq => .inl hq, .inl ⟨rfl, rfl⟩⟩
  · refine ⟨rfl, h.record ((h _ _ hs).accept hp), ?_, .inl ⟨rfl, rfl⟩⟩
    intro q hq
    exact ((hcounted s hs q).1 hq).symm.imp_left fun hq => ⟨s, hs, hq⟩
  · have haccept := (h _ _ hs).accept hp
    refine ⟨rfl, h.record haccept, ?_, .inr ⟨?_, ⟨_, haccept.assignments, rfl, rfl⟩, ?_⟩⟩
    · intro q hq
      exact ((hcounted s hs q).1 hq).symm.imp_left fun hq => ⟨s, hs, hq⟩
    · -- any other node of the round is a member, whose session is never complete
      by_contra hk
      have hmem := (AList.mem_of_perm (h _ _ hs).assignments).1 (hwf.sessions _ _ hs)
      rw [hid] at hmem
      rcases (hr.mem_assignments _).1 hmem with heq | hpeer
      · exact hk (hr.ids_injective (hX.injective heq))
      · obtain ⟨q, hq, heq⟩ := List.mem_map.1 hpeer
        have hmember : r.Member k := ⟨hk, hX.injective heq ▸ hq⟩
        rw [haccept.incomplete hX hr hmember] at ha
        cases ha
    · intro q hq
      exact ⟨_, AList.lookup_insert _, haccept.complete ha hq⟩

end Handling

end Round

end P2pMpc
