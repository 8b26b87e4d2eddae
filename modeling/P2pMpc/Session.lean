import Mathlib.Data.List.Sort
import P2pMpc.Interleaving

/-!
# Sessions and assignment messages

`SessionInfo` of `rpc.rs` and `handle_assignment_message` of `network.rs`. A coordinator stores a
session, counts the acceptances that arrive for it, and installs an orchestrator when
`all_accepted`; any other node installs one as soon as its own acceptance is published. Both paths
overwrite the slot. An orchestrator that is overwritten is gone, but the tasks it spawned still
hold its cells and the command channel: they are kept in `retired`.

`usize` values are natural numbers. Whether gossipsub takes a publication is the argument
`published`; the clock is the argument `now`.
-/

namespace P2pMpc

variable {X : Platform}

/-- Subtraction of `usize` values, which wraps below zero in a release build. -/
def usizeSub (a b : ℕ) : ℕ := if b ≤ a then a - b else a + 2 ^ 64 - b

/-- `SessionInfo`. -/
structure SessionInfo where
  sessionId : String
  coordinatorId : String
  assignments : HashMap String ℕ
  acceptances : HashMap String Bool
  createdAt : UInt64
  totalNodes : ℕ

namespace SessionInfo

/-- `SessionInfo::new`, at the time `now`. -/
def new (now : UInt64) (sessionId coordinatorId : String) (assignments : HashMap String ℕ) :
    SessionInfo where
  sessionId := sessionId
  coordinatorId := coordinatorId
  assignments := assignments
  acceptances := ∅
  createdAt := now
  totalNodes := assignments.entries.length

/-- `acceptance_count`. -/
def acceptanceCount (s : SessionInfo) : ℕ := s.acceptances.entries.countP fun e => e.2

/-- `all_accepted`. -/
def allAccepted (s : SessionInfo) : Bool :=
  s.acceptances.entries.length == usizeSub s.totalNodes 1 && s.acceptances.entries.all fun e => e.2

/-- `session.acceptances.insert(peer_id, true)`. -/
def accept (s : SessionInfo) (peerId : String) : SessionInfo :=
  { s with acceptances := s.acceptances.insert peerId true }

@[simp] theorem mem_accept {s : SessionInfo} {p q : String} :
    p ∈ (s.accept q).acceptances ↔ p = q ∨ p ∈ s.acceptances :=
  AList.mem_insert _

theorem entries_accept (s : SessionInfo) (p : String) :
    (s.accept p).acceptances.entries = ⟨p, true⟩ :: s.acceptances.entries.kerase p := rfl

/-- Only `true` is ever entered. -/
theorem all_accept {s : SessionInfo} (h : ∀ e ∈ s.acceptances.entries, e.2 = true) (p : String) :
    ∀ e ∈ (s.accept p).acceptances.entries, e.2 = true := by
  intro e he
  rw [entries_accept, List.mem_cons] at he
  rcases he with rfl | he
  · rfl
  · exact h e (List.kerase_sublist _ _ |>.subset he)

end SessionInfo

/-- `AssignmentMessage`. -/
inductive AssignmentMessage
  | request (coordinatorId : String) (assignments : HashMap String ℕ) (sessionId : String)
  | acceptance (peerId : String) (assignedIndex : ℕ) (sessionId : String)

/-- The session an assignment message is for. -/
def AssignmentMessage.sessionId : AssignmentMessage → String
  | .request _ _ sessionId => sessionId
  | .acceptance _ _ sessionId => sessionId

/-- The state a node's event loop, its RPC server and its tasks share. -/
structure Node (X : Platform) where
  id : X.PeerId
  peers : ℕ
  peerList : List X.PeerId
  sessions : HashMap String SessionInfo
  currentSessionId : Option String
  mpcOrchestrator : Option (Instance X)
  retired : List (Instance X)
  /-- The identity the next channel gets. -/
  nextChannel : ChannelId

/-- The peer ids of an assignment that parse, with their indices cast to `u16`, in the order the
conversion loop meets them. -/
def parsedAssignments (assignments : HashMap String ℕ) : List (X.PeerId × PartyIndex) :=
  assignments.entries.filterMap fun e => (X.parsePeer e.1).map fun p => (p, UInt16.ofNat e.2)

/-- The orchestrator both paths of `handle_assignment_message` build from an assignment. -/
def MPCOrchestrator.ofAssignments (localPeerId : X.PeerId) (assignments : HashMap String ℕ) :
    MPCOrchestrator X :=
  let parsed := parsedAssignments assignments
  .new localPeerId ((parsed.map Prod.fst).insertionSort (· ≤ ·)) (.ofEntries parsed)

namespace Node

/-- A node that has just started. -/
def new (id : X.PeerId) : Node X where
  id := id
  peers := 0
  peerList := []
  sessions := ∅
  currentSessionId := none
  mpcOrchestrator := none
  retired := []
  nextChannel := 0

/-- The assignments `assign_peer_indices` creates: the node itself at index 0, then the connected
peers in order. -/
def createAssignments (n : Node X) : HashMap String ℕ :=
  .ofEntries ((X.peerToString n.id, 0) :: (n.peerList.map X.peerToString).zipIdx 1)

/-- `assign_peer_indices`: the node after it, and the Request it broadcasts. -/
def assignPeerIndices (n : Node X) (now : UInt64) : Node X × AssignmentMessage :=
  let coordinatorId := X.peerToString n.id
  let sessionId := coordinatorId ++ "-" ++ toString now.toNat
  let assignments := n.createAssignments
  ({ n with
      sessions := n.sessions.insert sessionId (.new now sessionId coordinatorId assignments)
      currentSessionId := some sessionId },
    .request coordinatorId assignments sessionId)

/-- The id that `assign_peer_indices` gives its session. -/
def newSessionId (n : Node X) (now : UInt64) : String :=
  X.peerToString n.id ++ "-" ++ toString now.toNat

/-- `*orch_lock = Some(orchestrator)`. -/
def install (n : Node X) (assignments : HashMap String ℕ) : Node X :=
  { n with
    mpcOrchestrator := some ⟨.ofAssignments n.id assignments, []⟩
    retired := n.retired ++ n.mpcOrchestrator.toList }

/-- The session cells after a Request that lists this node. -/
def adopt (n : Node X) (now : UInt64) (coordinatorId : String) (assignments : HashMap String ℕ)
    (sessionId : String) : Node X :=
  { n with
    currentSessionId := some sessionId
    sessions :=
      if sessionId ∈ n.sessions then n.sessions
      else n.sessions.insert sessionId (.new now sessionId coordinatorId assignments) }

/-- `handle_assignment_message`: the node after it, and the acceptance it published. -/
def handleAssignmentMessage (n : Node X) (published : Bool) (now : UInt64) :
    AssignmentMessage → Node X × Option AssignmentMessage
  | .request coordinatorId assignments sessionId =>
      match assignments.lookup (X.peerToString n.id) with
      | none => (n, none)
      | some assignedIndex =>
        let n := n.adopt now coordinatorId assignments sessionId
        if coordinatorId = X.peerToString n.id then (n, none)
        else if published then
          (n.install assignments,
            some (.acceptance (X.peerToString n.id) assignedIndex sessionId))
        else (n, none)
  | .acceptance peerId _ sessionId =>
      match n.sessions.lookup sessionId with
      | none => (n, none)
      | some session =>
        let session := session.accept peerId
        let n := { n with sessions := n.sessions.insert sessionId session }
        if session.allAccepted then (n.install session.assignments, none) else (n, none)

/-- The node after it has counted an acceptance of a session. -/
def record (n : Node X) (sessionId : String) (session : SessionInfo) : Node X :=
  { n with sessions := n.sessions.insert sessionId session }

/-- A Request that does not list the node is ignored; one that lists it is adopted, and leads to an
installation if it comes from another node and the acceptance is published. -/
theorem handleRequest_cases (n : Node X) (published : Bool) (now : UInt64)
    (coordinatorId : String) (assignments : HashMap String ℕ) (sessionId : String) :
    (X.peerToString n.id ∉ assignments ∧ n.handleAssignmentMessage published now
        (.request coordinatorId assignments sessionId) = (n, none)) ∨
    ∃ i, assignments.lookup (X.peerToString n.id) = some i ∧
      (((coordinatorId = X.peerToString n.id ∨ published = false) ∧
        n.handleAssignmentMessage published now (.request coordinatorId assignments sessionId) =
          (n.adopt now coordinatorId assignments sessionId, none)) ∨
      (coordinatorId ≠ X.peerToString n.id ∧ published = true ∧
        n.handleAssignmentMessage published now (.request coordinatorId assignments sessionId) =
          ((n.adopt now coordinatorId assignments sessionId).install assignments,
            some (.acceptance (X.peerToString n.id) i sessionId)))) := by
  simp only [handleAssignmentMessage]
  cases hl : assignments.lookup (X.peerToString n.id) with
  | none => exact .inl ⟨AList.lookup_eq_none.1 hl, rfl⟩
  | some i =>
    refine .inr ⟨i, rfl, ?_⟩
    by_cases hc : coordinatorId = X.peerToString n.id
    · exact .inl ⟨.inl hc, if_pos hc⟩
    · cases published with
      | false => exact .inl ⟨.inr rfl, if_neg hc⟩
      | true => exact .inr ⟨hc, rfl, if_neg hc⟩

/-- An Acceptance of an unknown session is ignored; one of a known session is counted, and leads to
an installation if the session has all it needs. -/
theorem handleAcceptance_cases (n : Node X) (published : Bool) (now : UInt64) (peerId : String)
    (i : ℕ) (sessionId : String) :
    (n.sessions.lookup sessionId = none ∧ n.handleAssignmentMessage published now
        (.acceptance peerId i sessionId) = (n, none)) ∨
    ∃ session, n.sessions.lookup sessionId = some session ∧
      (((session.accept peerId).allAccepted = false ∧
        n.handleAssignmentMessage published now (.acceptance peerId i sessionId) =
          (n.record sessionId (session.accept peerId), none)) ∨
      ((session.accept peerId).allAccepted = true ∧
        n.handleAssignmentMessage published now (.acceptance peerId i sessionId) =
          ((n.record sessionId (session.accept peerId)).install session.assignments, none))) := by
  simp only [handleAssignmentMessage]
  cases hl : n.sessions.lookup sessionId with
  | none => exact .inl ⟨rfl, rfl⟩
  | some session =>
    refine .inr ⟨session, rfl, ?_⟩
    cases ha : (session.accept peerId).allAccepted with
    | false => exact .inl ⟨rfl, by simp only [ha]; rfl⟩
    | true => exact .inr ⟨rfl, by simp only [ha]; rfl⟩

/-- The orchestrator of the node is not the one it was: the slot holds another, or one has been
overwritten. -/
def Reinstalled (n n' : Node X) : Prop :=
  n'.mpcOrchestrator ≠ n.mpcOrchestrator ∨ n'.retired ≠ n.retired

theorem reinstalled_install (n : Node X) (as : HashMap String ℕ) :
    n.Reinstalled (n.install as) := by
  cases hn : n.mpcOrchestrator with
  | none => exact .inl (by simp [install, hn])
  | some inst => exact .inr (by simp [install, hn])

/-- An assignment message changes neither the identity of the node nor its peers. -/
theorem handleAssignmentMessage_keeps (n : Node X) (published : Bool) (now : UInt64)
    (msg : AssignmentMessage) : (n.handleAssignmentMessage published now msg).1.id = n.id ∧
      (n.handleAssignmentMessage published now msg).1.peerList = n.peerList := by
  unfold handleAssignmentMessage
  split
  · split
    · exact ⟨rfl, rfl⟩
    · dsimp only
      split_ifs <;> exact ⟨rfl, rfl⟩
  · split
    · exact ⟨rfl, rfl⟩
    · dsimp only
      split_ifs <;> exact ⟨rfl, rfl⟩

theorem lookup_record (n : Node X) (sid sid' : String) (session : SessionInfo) :
    (n.record sid session).sessions.lookup sid' =
      if sid' = sid then some session else n.sessions.lookup sid' := by
  show (n.sessions.insert sid session).lookup sid' = _
  split_ifs with hsid
  · rw [hsid]
    exact AList.lookup_insert _
  · exact AList.lookup_insert_ne hsid

/-- A session that is stored after one has been recorded is that one or an old one. -/
theorem of_lookup_record {n : Node X} {sid sid' : String} {session s : SessionInfo}
    (h : (n.record sid session).sessions.lookup sid' = some s) :
    (sid' = sid ∧ s = session) ∨ n.sessions.lookup sid' = some s := by
  rw [lookup_record] at h
  split_ifs at h with hsid
  · exact .inl ⟨hsid, (Option.some.inj h).symm⟩
  · exact .inr h

/-- A session that is stored after a Request is the one adopted from it or an old one. -/
theorem of_lookup_adopt {n : Node X} {now : UInt64} {c sid sid' : String} {A : HashMap String ℕ}
    {s : SessionInfo} (h : (n.adopt now c A sid).sessions.lookup sid' = some s) :
    (sid' = sid ∧ s = .new now sid c A) ∨ n.sessions.lookup sid' = some s := by
  simp only [adopt] at h
  split_ifs at h
  · exact .inr h
  · exact of_lookup_record h

/-- A session that is there is not adopted again. -/
theorem lookup_adopt {n : Node X} {sid : String} {session : SessionInfo}
    (h : n.sessions.lookup sid = some session) (now : UInt64) (c : String) (A : HashMap String ℕ)
    (sid' : String) : (n.adopt now c A sid').sessions.lookup sid = some session := by
  unfold adopt
  dsimp only
  split_ifs with hin
  · exact h
  · have hne : sid ≠ sid' := by
      rintro rfl
      exact hin (AList.lookup_isSome.1 (by simp [h]))
    exact (n.lookup_record sid' sid _).trans ((if_neg hne).trans h)

/-- The message makes `handle_assignment_message` install an orchestrator: it is a Request that
lists the node under another coordinator and whose acceptance is published, or an Acceptance with
which the session has as many acceptances as it needs. -/
def Installs (n : Node X) (published : Bool) : AssignmentMessage → Prop
  | .request coordinatorId assignments _ =>
      X.peerToString n.id ∈ assignments ∧ coordinatorId ≠ X.peerToString n.id ∧ published = true
  | .acceptance peerId _ sessionId =>
      ∃ session, n.sessions.lookup sessionId = some session ∧
        (session.accept peerId).allAccepted = true

/-- The messages that install an orchestrator are those that leave another one behind. -/
theorem reinstalled_iff_installs {n : Node X} {published : Bool} {now : UInt64}
    {msg : AssignmentMessage} :
    n.Reinstalled (n.handleAssignmentMessage published now msg).1 ↔ n.Installs published msg := by
  cases msg with
  | request c A sid =>
    rcases n.handleRequest_cases published now c A sid with
      ⟨hmem, he⟩ | ⟨i, hi, ⟨hor, he⟩ | ⟨hc, hp, he⟩⟩ <;> rw [he]
    · simp [Reinstalled, Installs, hmem]
    · refine iff_of_false (by simp [Reinstalled, adopt]) ?_
      rintro ⟨-, hc, hp⟩
      rcases hor with h | h
      · exact hc h
      · simp [h] at hp
    · have hnew := (n.adopt now c A sid).reinstalled_install A
      exact iff_of_true hnew ⟨AList.lookup_isSome.1 (by simp [hi]), hc, hp⟩
  | acceptance x i sid =>
    rcases n.handleAcceptance_cases published now x i sid with
      ⟨hs, he⟩ | ⟨s, hs, ⟨ha, he⟩ | ⟨ha, he⟩⟩ <;> rw [he]
    · simp [Reinstalled, Installs, hs]
    · simp [Reinstalled, Installs, record, hs, ha]
    · have hnew := (n.record sid (s.accept x)).reinstalled_install s.assignments
      exact iff_of_true hnew ⟨s, hs, ha⟩

/-- The orchestrator slot after an assignment message. -/
theorem handleAssignmentMessage_slot (n : Node X) (published : Bool) (now : UInt64)
    (msg : AssignmentMessage) :
    (¬ n.Installs published msg ∧
      (n.handleAssignmentMessage published now msg).1.mpcOrchestrator = n.mpcOrchestrator) ∨
    (n.Installs published msg ∧ ∃ assignments,
      (n.handleAssignmentMessage published now msg).1.mpcOrchestrator =
        some ⟨.ofAssignments n.id assignments, []⟩) := by
  cases msg with
  | request coordinatorId assignments sessionId =>
    simp only [handleAssignmentMessage, Installs, ← AList.lookup_isSome]
    cases assignments.lookup (X.peerToString n.id) with
    | none => simp
    | some i =>
      by_cases hc : coordinatorId = X.peerToString n.id
      · simp [hc, adopt]
      · cases published with
        | false => simp [hc, adopt]
        | true => exact .inr ⟨by simp [hc], assignments, by simp [hc, adopt, install]⟩
  | acceptance peerId assignedIndex sessionId =>
    simp only [handleAssignmentMessage, Installs]
    cases hs : n.sessions.lookup sessionId with
    | none => simp
    | some session =>
      cases ha : (session.accept peerId).allAccepted with
      | false => simp [ha]
      | true => exact .inr ⟨⟨session, rfl, ha⟩, _, by simp [ha, install]; rfl⟩

/-- The sessions after an Acceptance: the one it names has recorded it, if there is one. -/
theorem lookup_sessions_acceptance (n : Node X) (published : Bool) (now : UInt64)
    (peerId : String) (i : ℕ) (sid sid' : String) :
    (n.handleAssignmentMessage published now (.acceptance peerId i sid)).1.sessions.lookup sid' =
      (n.sessions.lookup sid').map fun s => if sid = sid' then s.accept peerId else s := by
  simp only [handleAssignmentMessage]
  cases hs : n.sessions.lookup sid with
  | none =>
    by_cases h : sid = sid'
    · subst h
      simp [hs]
    · simp [h]
  | some s =>
    -- installing an orchestrator leaves the sessions alone
    have hsessions : ∀ c : Bool, ∀ m : Node X, (if c then ((m.install (s.accept peerId).assignments,
        none) : Node X × Option AssignmentMessage) else (m, none)).1.sessions = m.sessions := by
      intro c m
      cases c <;> rfl
    rw [hsessions]
    by_cases h : sid = sid'
    · subst h
      simp [hs]
    · simp [h, AList.lookup_insert_ne (Ne.symm h)]

/-! ### The assignments of `assign_peer_indices` -/

/-- What is parsed from the assignments of `assign_peer_indices` are the node and its peers, with
their positions. -/
theorem parsedAssignments_createAssignments (hX : X.ParsesPeers) {n : Node X}
    (hn : (n.id :: n.peerList).Nodup) :
    (parsedAssignments n.createAssignments : List (X.PeerId × PartyIndex)) =
      ((n.id :: n.peerList).zipIdx.map fun e => (e.1, UInt16.ofNat e.2)).reverse := by
  have hcreate : n.createAssignments =
      .ofEntries (((n.id :: n.peerList).map X.peerToString).zipIdx) := rfl
  rw [parsedAssignments, hcreate, HashMap.entries_ofEntries, List.filterMap_reverse,
    List.filterMap_map, List.zipIdx_map, List.filterMap_map, ← List.filterMap_eq_map]
  · congr 2
    funext e
    simp [hX _]
  · rw [List.zipIdx_map_fst]
    exact hn.map hX.injective

/-- Every node that adopts them has the coordinator at the index 0 and its peers at the next ones,
in order, cast to `u16`. -/
theorem lookup_createAssignments (hX : X.ParsesPeers) {n : Node X} (hn : (n.id :: n.peerList).Nodup)
    (q p : X.PeerId) (i : PartyIndex) :
    (MPCOrchestrator.ofAssignments q n.createAssignments).partyAssignments.lookup p = some i ↔
      ∃ j, (n.id :: n.peerList)[j]? = some p ∧ UInt16.ofNat j = i := by
  have hkeys : ((parsedAssignments n.createAssignments : List (X.PeerId × PartyIndex)).map
      Prod.fst).Nodup := by
    rw [parsedAssignments_createAssignments hX hn, List.map_reverse, List.map_map]
    have hfst : ((n.id :: n.peerList).zipIdx.map (Prod.fst ∘ fun e => (e.1, UInt16.ofNat e.2))) =
        n.id :: n.peerList := List.zipIdx_map_fst 0 _
    rw [hfst, List.nodup_reverse]
    exact hn
  have hassign : (MPCOrchestrator.ofAssignments q n.createAssignments).partyAssignments =
      .ofEntries (parsedAssignments n.createAssignments) := rfl
  rw [hassign, ← Option.mem_def, AList.mem_lookup_iff, HashMap.entries_ofEntries hkeys,
    parsedAssignments_createAssignments hX hn]
  generalize n.id :: n.peerList = ps
  simp [List.mk_mem_zipIdx_iff_getElem?]

theorem participants_createAssignments (hX : X.ParsesPeers) {n : Node X}
    (hn : (n.id :: n.peerList).Nodup) (q : X.PeerId) :
    (MPCOrchestrator.ofAssignments q n.createAssignments).participants.length =
      n.peerList.length + 1 := by
  have hparticipants : (MPCOrchestrator.ofAssignments q n.createAssignments).participants =
      ((parsedAssignments n.createAssignments).map Prod.fst).insertionSort (· ≤ ·) := rfl
  rw [hparticipants, List.length_insertionSort, parsedAssignments_createAssignments hX hn]
  simp

end Node

end P2pMpc
