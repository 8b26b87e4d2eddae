import P2pMpc.Installed

/-!
# The indices of an installed orchestrator

An assignment maps printed peer ids to numbers of machine size. `handle_assignment_message` keeps
the entries whose peer id parses, casts their numbers to `u16`, and installs whatever comes out. The
RPC calls take the number of participants, cast to `u16` as well, as the number of parties. The
indices make sense exactly for the maps that number the peers they list from 0 on. They are those of
the session as long as the map is the session's: a Request under an id that is already stored leaves
the session as it is, and still installs the map it carries.
-/

namespace P2pMpc

open StateMachine

variable {X : Platform}

/-! ### The peers an assignment lists -/

/-- The entries of an assignment whose peer id parses, with their numbers as they are. -/
def listedPeers (X : Platform) (assignments : HashMap String ℕ) : List (X.PeerId × ℕ) :=
  assignments.entries.filterMap fun e => (X.parsePeer e.1).map fun p => (p, e.2)

/-- The numbers that the second assignment gives the peers listed by the first. -/
def numbersOfListed (X : Platform) (assignments session : HashMap String ℕ) : List (Option ℕ) :=
  (listedPeers X assignments).map fun e => session.lookup (X.peerToString e.1)

/-- The second assignment gives the peers that the first lists the numbers from 0 on, each once, and
there are not too many for a `u16`. -/
def NumbersListed (X : Platform) (assignments session : HashMap String ℕ) : Prop :=
  let numbers := numbersOfListed X assignments session
  numbers.Nodup ∧ (∀ o ∈ numbers, ∃ i < numbers.length, o = some i) ∧ numbers.length < 2 ^ 16

/-- Where the second assignment numbers a peer that the first lists, the numbers are equal modulo
`2 ^ 16`. -/
def SameNumbers (X : Platform) (assignments session : HashMap String ℕ) : Prop :=
  ∀ e ∈ listedPeers X assignments, ∀ i ∈ session.lookup (X.peerToString e.1),
    i % 2 ^ 16 = e.2 % 2 ^ 16

instance (X : Platform) (assignments session : HashMap String ℕ) :
    Decidable (NumbersListed X assignments session) :=
  inferInstanceAs (Decidable (_ ∧ _ ∧ _))

/-- The indices of an orchestrator tell its peers apart, are those of the session's assignment, are
below the number of participants, and this number fits the RPC calls. -/
structure MPCOrchestrator.WellIndexed (o : MPCOrchestrator X) (session : HashMap String ℕ) :
    Prop where
  distinct : ∀ p q i, o.partyAssignments.lookup p = some i → o.partyAssignments.lookup q = some i →
    p = q
  untruncated : ∀ p i, o.partyAssignments.lookup p = some i →
    session.lookup (X.peerToString p) = some i.toNat
  below : ∀ p i, o.partyAssignments.lookup p = some i → i.toNat < o.participants.length
  counted : (UInt16.ofNat o.participants.length).toNat = o.participants.length

section Listed

variable {assignments session : HashMap String ℕ}

theorem parsedAssignments_eq : (parsedAssignments assignments : List (X.PeerId × PartyIndex)) =
    (listedPeers X assignments).map fun e => (e.1, UInt16.ofNat e.2) := by
  rw [parsedAssignments, listedPeers, List.map_filterMap]
  congr 1
  funext e
  cases X.parsePeer e.1 <;> rfl

/-- A listed peer has one number, the one its printed id is mapped to. -/
theorem mem_listedPeers (hX : X.Lawful) {p : X.PeerId} {i : ℕ} :
    (p, i) ∈ listedPeers X assignments ↔ assignments.lookup (X.peerToString p) = some i := by
  rw [listedPeers, List.mem_filterMap, ← Option.mem_def, AList.mem_lookup_iff]
  constructor
  · rintro ⟨⟨s, j⟩, he, hp⟩
    obtain ⟨p', hp', heq⟩ := Option.map_eq_some_iff.1 hp
    cases heq
    rwa [← hX.parse_inj s _ p hp' (hX.parse_toString p)]
  · intro he
    exact ⟨_, he, by simp [hX.parse_toString]⟩

theorem nodup_listedPeers (hX : X.Lawful) :
    ((listedPeers X assignments).map Prod.fst).Nodup := by
  have hfst : (listedPeers X assignments).map Prod.fst =
      assignments.keys.filterMap X.parsePeer := by
    rw [listedPeers, List.map_filterMap, AList.keys, List.keys, List.filterMap_map]
    congr 1
    funext e
    cases h : X.parsePeer e.1 <;> simp [h]
  rw [hfst]
  apply assignments.keys_nodup.filterMap
  intro s t p hs ht
  exact hX.parse_inj s t p hs ht

/-- The map of the installed orchestrator has the listed peers, with their numbers cast. -/
theorem lookup_ofAssignments (hX : X.Lawful) (q : X.PeerId) {p : X.PeerId} {i : PartyIndex} :
    (MPCOrchestrator.ofAssignments q assignments).partyAssignments.lookup p = some i ↔
      ∃ j, (p, j) ∈ listedPeers X assignments ∧ UInt16.ofNat j = i := by
  have hkeys : ((parsedAssignments assignments : List (X.PeerId × PartyIndex)).map
      Prod.fst).Nodup := by
    rw [parsedAssignments_eq, List.map_map]
    exact nodup_listedPeers hX
  have hassign : (MPCOrchestrator.ofAssignments q assignments).partyAssignments =
      .ofEntries (parsedAssignments assignments) := rfl
  rw [hassign, ← Option.mem_def, AList.mem_lookup_iff, HashMap.entries_ofEntries hkeys,
    parsedAssignments_eq]
  constructor
  · intro h
    simp only [List.map_map, List.mem_reverse, List.mem_map, Function.comp_apply] at h
    obtain ⟨⟨p', j⟩, hmem, he⟩ := h
    cases he
    exact ⟨j, hmem, rfl⟩
  · rintro ⟨j, hmem, rfl⟩
    simp only [List.map_map, List.mem_reverse, List.mem_map, Function.comp_apply]
    exact ⟨(p, j), hmem, rfl⟩

theorem participants_ofAssignments (q : X.PeerId) :
    (MPCOrchestrator.ofAssignments q assignments).participants.length =
      (listedPeers X assignments).length := by
  have hparticipants : (MPCOrchestrator.ofAssignments q assignments).participants =
      ((parsedAssignments assignments).map Prod.fst).insertionSort (· ≤ ·) := rfl
  rw [hparticipants, List.length_insertionSort, parsedAssignments_eq]
  simp

/-- A number survives the cast exactly if it fits. -/
theorem toNat_ofNat_eq_iff {k : ℕ} : (UInt16.ofNat k).toNat = k ↔ k < 2 ^ 16 := by
  rw [UInt16.toNat_ofNat']
  omega

theorem sameNumbers_self (hX : X.Lawful) : SameNumbers X assignments assignments := by
  rintro ⟨p, j⟩ hmem i hi
  obtain rfl := Option.some.inj (((mem_listedPeers hX).1 hmem).symm.trans hi)
  rfl

/-- The orchestrator built from an assignment is well indexed for a session exactly if the session
numbers the peers that the assignment lists, and the assignment gives them the same numbers. -/
theorem wellIndexed_ofAssignments (hX : X.Lawful) (q : X.PeerId) :
    (MPCOrchestrator.ofAssignments q assignments).WellIndexed session ↔
      NumbersListed X assignments session ∧ SameNumbers X assignments session := by
  have hlength : (numbersOfListed X assignments session).length =
      (MPCOrchestrator.ofAssignments q assignments).participants.length := by
    rw [numbersOfListed, List.length_map, participants_ofAssignments]
  have hpeers : (listedPeers X assignments).Nodup := List.Nodup.of_map _ (nodup_listedPeers hX)
  constructor
  · intro h
    have hindex : ∀ p j, (p, j) ∈ listedPeers X assignments →
        session.lookup (X.peerToString p) = some (UInt16.ofNat j).toNat ∧
          (UInt16.ofNat j).toNat < (numbersOfListed X assignments session).length := by
      intro p j hmem
      have hp := (lookup_ofAssignments hX q).2 ⟨j, hmem, rfl⟩
      exact ⟨h.untruncated p _ hp, hlength ▸ h.below p _ hp⟩
    refine ⟨⟨?_, ?_, ?_⟩, ?_⟩
    · refine hpeers.map_on ?_
      rintro ⟨p, j⟩ hp ⟨p', j'⟩ hp' he
      -- equal numbers in the session are equal indices, which tell the peers apart
      simp only [(hindex p j hp).1, (hindex p' j' hp').1, Option.some.injEq,
        UInt16.toNat_inj] at he
      obtain rfl := h.distinct p p' _ ((lookup_ofAssignments hX q).2 ⟨j, hp, rfl⟩)
        ((lookup_ofAssignments hX q).2 ⟨j', hp', he.symm⟩)
      exact List.inj_on_of_nodup_map (nodup_listedPeers hX) hp hp' rfl
    · intro o ho
      obtain ⟨⟨p, j⟩, hmem, rfl⟩ := List.mem_map.1 ho
      exact ⟨_, (hindex p j hmem).2, (hindex p j hmem).1⟩
    · rw [hlength]
      exact toNat_ofNat_eq_iff.1 h.counted
    · rintro ⟨p, j⟩ hmem i hi
      obtain rfl := Option.some.inj ((hindex p j hmem).1.symm.trans hi)
      rw [UInt16.toNat_ofNat']
      omega
  · rintro ⟨⟨hnodup, hbelow, hfits⟩, hsame⟩
    -- the cast of the installed number is the number in the session
    have hindex : ∀ p j, (p, j) ∈ listedPeers X assignments →
        session.lookup (X.peerToString p) = some (UInt16.ofNat j).toNat ∧
          (UInt16.ofNat j).toNat < (numbersOfListed X assignments session).length := by
      intro p j hmem
      obtain ⟨i, hi, hlookup⟩ := hbelow _ (List.mem_map_of_mem hmem)
      have hmod : i % 2 ^ 16 = j % 2 ^ 16 := hsame (p, j) hmem i hlookup
      have hcast : (UInt16.ofNat j).toNat = i := by
        rw [UInt16.toNat_ofNat']
        omega
      rw [hcast]
      exact ⟨hlookup, hi⟩
    refine ⟨?_, ?_, ?_, ?_⟩
    · intro p p' i hp hp'
      obtain ⟨j, hmem, rfl⟩ := (lookup_ofAssignments hX q).1 hp
      obtain ⟨j', hmem', he⟩ := (lookup_ofAssignments hX q).1 hp'
      have hnumber : session.lookup (X.peerToString p) = session.lookup (X.peerToString p') := by
        rw [(hindex p j hmem).1, (hindex p' j' hmem').1, he]
      exact congrArg Prod.fst (List.inj_on_of_nodup_map hnodup hmem hmem' hnumber)
    · intro p i hp
      obtain ⟨j, hmem, rfl⟩ := (lookup_ofAssignments hX q).1 hp
      exact (hindex p j hmem).1
    · intro p i hp
      obtain ⟨j, hmem, rfl⟩ := (lookup_ofAssignments hX q).1 hp
      rw [← hlength]
      exact (hindex p j hmem).2
    · rw [toNat_ofNat_eq_iff, ← hlength]
      exact hfits

end Listed

/-! ### What is installed -/

namespace Node

/-- The assignments an assignment message is about: those it carries, or those of the session it
names. -/
def assignmentsOf (n : Node X) : AssignmentMessage → Option (HashMap String ℕ)
  | .request _ assignments _ => some assignments
  | .acceptance _ _ sessionId => (n.sessions.lookup sessionId).map SessionInfo.assignments

/-- The step handles an assignment message that installs an orchestrator for the assignments. -/
def InstallsFor (n : Node X) (l : NodeLabel X) (assignments : HashMap String ℕ) : Prop :=
  ∃ source published now msg, l = .receive source published now (.assignment msg) ∧
    source ≠ some n.id ∧ n.Installs published msg ∧ n.assignmentsOf msg = some assignments

theorem step_of_installsFor {n : Node X} {l : NodeLabel X} {assignments : HashMap String ℕ}
    (h : n.InstallsFor l assignments) : ∃ n', n.step l = some n' ∧
      n'.mpcOrchestrator = some ⟨.ofAssignments n.id assignments, []⟩ := by
  obtain ⟨source, published, now, msg, rfl, hsource, hinstalls, has⟩ := h
  refine ⟨_, rfl, ?_⟩
  rw [onMessage, if_neg hsource]
  cases msg with
  | request c as sid =>
    obtain rfl := Option.some.inj has
    obtain ⟨hmem, hc, rfl⟩ := hinstalls
    rcases n.handleRequest_cases true now c as sid with ⟨hnot, -⟩ | ⟨i, -, ⟨hor, -⟩ | ⟨-, -, he⟩⟩
    · exact absurd hmem hnot
    · rcases hor with he | hp
      · exact absurd he hc
      · cases hp
    · show (n.handleAssignmentMessage true now (.request c as sid)).1.mpcOrchestrator = _
      rw [he]
      rfl
  | acceptance p i sid =>
    obtain ⟨session, hs, hall⟩ := hinstalls
    rw [assignmentsOf, hs] at has
    obtain rfl := Option.some.inj has
    show (n.handleAssignmentMessage published now (.acceptance p i sid)).1.mpcOrchestrator = _
    rcases n.handleAcceptance_cases published now p i sid with
      ⟨hnone, -⟩ | ⟨session', hs', ⟨hnot, -⟩ | ⟨-, he⟩⟩
    · rw [hs] at hnone
      cases hnone
    · obtain rfl := Option.some.inj (hs.symm.trans hs')
      rw [hall] at hnot
      cases hnot
    · obtain rfl := Option.some.inj (hs.symm.trans hs')
      rw [he]
      rfl

/-- The assignments of the session that a node stores for an assignment message: those it stores
already, or else those of the Request. -/
def sessionAssignments (n : Node X) : AssignmentMessage → Option (HashMap String ℕ)
  | .request _ assignments sessionId =>
      some (((n.sessions.lookup sessionId).map SessionInfo.assignments).getD assignments)
  | .acceptance _ _ sessionId => (n.sessions.lookup sessionId).map SessionInfo.assignments

/-- A node that installs an orchestrator on an assignment message stores the session of the message
afterwards. -/
theorem session_of_installs {n : Node X} {published : Bool} {msg : AssignmentMessage}
    (h : n.Installs published msg) (now : UInt64) : ∃ session,
      (n.handleAssignmentMessage published now msg).1.sessions.lookup msg.sessionId =
        some session ∧ n.sessionAssignments msg = some session.assignments := by
  cases msg with
  | request c A sid =>
    obtain ⟨hmem, hc, rfl⟩ := h
    rcases n.handleRequest_cases true now c A sid with ⟨hnot, -⟩ | ⟨i, -, ⟨hor, -⟩ | ⟨-, -, he⟩⟩
    · exact absurd hmem hnot
    · rcases hor with he | hp
      · exact absurd he hc
      · cases hp
    · rw [he]
      show ∃ session, (if sid ∈ n.sessions then n.sessions else _).lookup sid = some session ∧ _
      split_ifs with hin
      · obtain ⟨session, hs⟩ := Option.isSome_iff_exists.1 (AList.lookup_isSome.2 hin)
        exact ⟨session, hs, by simp [sessionAssignments, hs]⟩
      · refine ⟨_, AList.lookup_insert _, ?_⟩
        simp [sessionAssignments, AList.lookup_eq_none.2 hin, SessionInfo.new]
  | acceptance p i sid =>
    obtain ⟨σ, hσ, -⟩ := h
    have hlookup := n.lookup_sessions_acceptance published now p i sid sid
    rw [hσ, Option.map_some, if_pos rfl] at hlookup
    exact ⟨σ.accept p, hlookup, by simp [sessionAssignments, hσ, SessionInfo.accept]⟩

/-- If the step handles an assignment message and thereby installs an orchestrator, then the
orchestrator is well indexed for the session the node stores. -/
def InstallsWellIndexed (n : Node X) (l : NodeLabel X) : Prop :=
  ∀ source published now msg n', l = .receive source published now (.assignment msg) →
    n.step l = some n' → n.Reinstalled n' → ∃ inst session, n'.mpcOrchestrator = some inst ∧
      n'.sessions.lookup msg.sessionId = some session ∧ inst.orch.WellIndexed session.assignments

/-- If the step makes the node install an orchestrator for the map `A` in the session with the map
`B`, then `B` numbers the peers that `A` lists, and `A` gives them the same numbers. -/
def InstallsNumbered (n : Node X) (l : NodeLabel X) : Prop :=
  ∀ source published now msg A B, l = .receive source published now (.assignment msg) →
    source ≠ some n.id → n.Installs published msg → n.assignmentsOf msg = some A →
      n.sessionAssignments msg = some B → NumbersListed X A B ∧ SameNumbers X A B

theorem exists_assignmentsOf {n : Node X} {published : Bool} {msg : AssignmentMessage}
    (h : n.Installs published msg) : ∃ A, n.assignmentsOf msg = some A := by
  cases msg with
  | request c A sid => exact ⟨A, rfl⟩
  | acceptance p i sid =>
    obtain ⟨session, hs, -⟩ := h
    exact ⟨session.assignments, by rw [assignmentsOf, hs]; rfl⟩

theorem installsWellIndexed_iff (hX : X.Lawful) (n : Node X) (l : NodeLabel X) :
    n.InstallsWellIndexed l ↔ n.InstallsNumbered l := by
  constructor
  · rintro h source published now msg A B rfl hsource hinstalls hA hB
    obtain ⟨n', hstep, hslot⟩ :=
      step_of_installsFor ⟨source, published, now, msg, rfl, hsource, hinstalls, hA⟩
    obtain ⟨session, hs, hsession⟩ := session_of_installs hinstalls now
    obtain rfl := Option.some.inj (hB.symm.trans hsession)
    have hn' : n' = (n.handleAssignmentMessage published now msg).1 := by
      rw [← Option.some.inj hstep, onMessage, if_neg hsource]
    subst hn'
    obtain ⟨inst, session', hinst, hs', hwell⟩ := h source published now msg _ rfl hstep
      (reinstalled_iff_installs.2 hinstalls)
    obtain rfl := Option.some.inj (hslot.symm.trans hinst)
    obtain rfl := Option.some.inj (hs.symm.trans hs')
    exact (wellIndexed_ofAssignments hX n.id).1 hwell
  · rintro h source published now msg n' rfl hstep hre
    obtain rfl := Option.some.inj hstep
    have hsource : source ≠ some n.id := by
      intro hs
      rw [onMessage, if_pos hs] at hre
      rcases hre with hre | hre <;> exact hre rfl
    rw [onMessage, if_neg hsource] at hre
    have hinstalls := reinstalled_iff_installs.1 hre
    obtain ⟨A, hA⟩ := exists_assignmentsOf hinstalls
    obtain ⟨session, hs, hB⟩ := session_of_installs hinstalls now
    obtain ⟨n', hstep', hslot⟩ :=
      step_of_installsFor ⟨source, published, now, msg, rfl, hsource, hinstalls, hA⟩
    obtain rfl := Option.some.inj (hstep.symm.trans hstep')
    refine ⟨_, session, hslot, by rw [onMessage, if_neg hsource]; exact hs, ?_⟩
    exact (wellIndexed_ofAssignments hX n.id).2
      (h source published now msg A _ rfl hsource hinstalls hA hB)

end Node

open Node

/-- On every stream of messages a node meets: all orchestrators installed by assignment messages are
well indexed exactly if, at each installation, the session's map gives the peers that the installed
map lists the numbers from 0 on, each once, there are fewer than `2 ^ 16` of them, and the installed
map gives them the same numbers modulo `2 ^ 16`. -/
theorem installed_indices_iff (hX : X.Lawful) (n : Node X) (ls : List (NodeLabel X)) :
    (nodeMachine X).Meets InstallsWellIndexed n ls ↔
      (nodeMachine X).Meets InstallsNumbered n ls := by
  constructor
  · exact Machine.Meets.mono fun s l => (installsWellIndexed_iff hX s l).1
  · exact Machine.Meets.mono fun s l => (installsWellIndexed_iff hX s l).2

namespace WrapRun

/-- The node `b` is assigned an index by `a`. -/
def request (i : ℕ) : NodeLabel .plain :=
  .receive (some "a") true 0 (.assignment (.request "a" (.ofEntries [("a", 0), ("b", i)]) "a-0"))

end WrapRun

/-- An index of `2 ^ 16` is installed as the index 0, which the coordinator has. -/
theorem wrapped_index_installed : ∃ n' : Node .plain, ∃ inst : Instance .plain,
    (Node.new (X := .plain) "b").step (WrapRun.request 65536) = some n' ∧
      n'.mpcOrchestrator = some inst ∧
      (inst.orch.partyAssignments : HashMap Platform.plain.PeerId PartyIndex).lookup "a" = some 0 ∧
      (inst.orch.partyAssignments : HashMap Platform.plain.PeerId PartyIndex).lookup "b" = some 0 ∧
      ¬ (nodeMachine .plain).Meets InstallsWellIndexed (.new "b") [WrapRun.request 65536] := by
  refine ⟨_, _, rfl, rfl, by decide, by decide, fun h => ?_⟩
  obtain ⟨inst, session, hinst, -, hwell⟩ := h.1 _ _ _ _ _ rfl rfl (.inl (by rintro ⟨⟩))
  cases hinst
  have hsame : ("a" : String) = "b" := hwell.distinct "a" "b" 0 (by decide) (by decide)
  exact absurd hsame (by decide)

/-- The next index is well indexed. -/
theorem next_index_installed :
    (nodeMachine .plain).Meets InstallsWellIndexed (.new "b") [WrapRun.request 1] := by
  refine (installed_indices_iff Platform.plain_lawful _ _).2 ⟨?_, fun _ _ => trivial⟩
  rintro source published now msg A B he - - hA hB
  cases he
  obtain rfl := Option.some.inj hA
  obtain rfl := Option.some.inj hB
  exact ⟨by decide, sameNumbers_self Platform.plain_lawful⟩

end P2pMpc
