import P2pMpc.InstalledIndices

/-!
# The roster of an installed orchestrator

Both paths of `handle_assignment_message` fill a map and a list side by side while they skip the
peer ids that do not parse, and sort the list. Different strings parse to different peers, so the
list is strictly sorted and has the keys of the map, whatever the assignment contains; and only an
assignment that lists the node is ever installed, so the node is among them. No handler and no task
changes a roster.
-/

namespace P2pMpc

open StateMachine

variable {X : Platform}

namespace MPCOrchestrator

variable {o o' : MPCOrchestrator X}

/-- The participants are strictly sorted, and are the peers that have an index. -/
structure Rostered (o : MPCOrchestrator X) : Prop where
  sorted : o.participants.Pairwise (· < ·)
  keys : ∀ p, p ∈ o.participants ↔ p ∈ o.partyAssignments

theorem Rostered.of_roster (h : o.Rostered) (hr : o'.roster = o.roster) : o'.Rostered := by
  obtain ⟨hparticipants, hassign, -⟩ : o'.participants = o.participants ∧
      o'.partyAssignments = o.partyAssignments ∧ o'.localPeerId = o.localPeerId := by
    simpa [roster] using hr
  exact ⟨hparticipants ▸ h.sorted, hparticipants ▸ hassign ▸ h.keys⟩

/-- The order in which the entries are met, and the entries that are skipped, make no difference. -/
theorem rostered_ofAssignments (hX : X.Lawful) (q : X.PeerId) (assignments : HashMap String ℕ) :
    (ofAssignments q assignments).Rostered := by
  have hparticipants : (ofAssignments q assignments).participants =
      ((parsedAssignments assignments).map Prod.fst).insertionSort (· ≤ ·) := rfl
  have hassign : (ofAssignments q assignments).partyAssignments =
      .ofEntries (parsedAssignments assignments) := rfl
  have hnodup : ((parsedAssignments assignments : List (X.PeerId × PartyIndex)).map
      Prod.fst).Nodup := by
    rw [parsedAssignments_eq, List.map_map]
    exact nodup_listedPeers hX
  refine ⟨?_, fun p => ?_⟩
  · rw [hparticipants]
    apply List.SortedLT.pairwise
    apply List.sortedLE_insertionSort.sortedLT_of_nodup
    exact (List.perm_insertionSort _ _).nodup_iff.2 hnodup
  · rw [hparticipants, hassign, List.mem_insertionSort, HashMap.mem_ofEntries, List.mem_map]
    constructor
    · rintro ⟨⟨_, i⟩, he, rfl⟩
      exact ⟨i, he⟩
    · rintro ⟨i, he⟩
      exact ⟨(p, i), he, rfl⟩

/-! ### The checks of the handlers -/

variable {sender p : X.PeerId} {eid msg : List UInt8} {t n : UInt16} {signers : List PartyIndex}
  {timestamp : SystemTime}

theorem enterKeygen_ne_notIncluded (h : o.localPeerId ∈ o.partyAssignments) :
    o.enterKeygen sender eid t n timestamp ≠ .error (.notIncluded p) := by
  obtain ⟨i, hi⟩ := Option.isSome_iff_exists.1 (AList.lookup_isSome.2 h)
  unfold enterKeygen
  cases timestamp.secsSinceEpoch with
  | none => simp
  | some ts =>
    rw [hi]
    dsimp only
    split_ifs <;> simp

theorem enterSigning_ne_notInAssignments (h : o.localPeerId ∈ o.partyAssignments) :
    o.enterSigning sender eid msg signers timestamp ≠ .error (.notInAssignments p) := by
  obtain ⟨i, hi⟩ := Option.isSome_iff_exists.1 (AList.lookup_isSome.2 h)
  unfold enterSigning
  cases timestamp.secsSinceEpoch with
  | none => simp
  | some ts =>
    rw [hi]
    dsimp only
    split_ifs <;> simp

/-- Past the checks only the aux info can be missing. -/
theorem handleInitiateKeygen_ne_notIncluded (h : o.localPeerId ∈ o.partyAssignments)
    (chan : ChannelId) :
    (o.handleInitiateKeygen chan sender eid t n timestamp).result ≠ .error (.notIncluded p) := by
  unfold handleInitiateKeygen
  cases he : o.enterKeygen sender eid t n timestamp with
  | error e =>
    rintro ⟨⟩
    exact enterKeygen_ne_notIncluded h he
  | ok r =>
    dsimp only
    unfold startKeygen
    cases r.1.auxInfo <;> simp

/-- Past the checks only the aux info and the key share can be missing. -/
theorem handleInitiateSigning_ne_notInAssignments (h : o.localPeerId ∈ o.partyAssignments)
    (chan : ChannelId) :
    (o.handleInitiateSigning chan sender eid msg signers timestamp).result ≠
      .error (.notInAssignments p) := by
  unfold handleInitiateSigning
  cases he : o.enterSigning sender eid msg signers timestamp with
  | error e =>
    rintro ⟨⟩
    exact enterSigning_ne_notInAssignments h he
  | ok r =>
    dsimp only
    split_ifs
    · unfold readAuxInfo
      cases r.1.auxInfo with
      | none => simp
      | some a =>
        dsimp only
        unfold startSigning
        cases r.1.keyShare <;> simp
    · simp

end MPCOrchestrator

namespace Node

variable {n n' : Node X} {l : NodeLabel X}

/-- The roster of the orchestrator in the slot is the one it had before the step, or the slot has
just been filled. -/
theorem SlotStep.roster {slot : Option (Instance X)} {inst : Instance X} (h : n.SlotStep l slot)
    (hinst : slot = some inst) :
    (∃ inst₀, n.mpcOrchestrator = some inst₀ ∧ inst.orch.roster = inst₀.orch.roster) ∨
      ∃ assignments, inst = ⟨.ofAssignments n.id assignments, []⟩ := by
  cases h with
  | keep => exact .inl ⟨inst, hinst, rfl⟩
  | install assignments =>
    obtain rfl := Option.some.inj hinst
    exact .inr ⟨assignments, rfl⟩
  | coordinate inst₀ p msg hinst₀ _ =>
    obtain rfl := Option.some.inj hinst
    exact .inl ⟨inst₀, hinst₀, handle_roster _ _ _ _⟩
  | finish inst₀ i r c hinst₀ hc | advance inst₀ i c hinst₀ hc =>
    obtain rfl := Option.some.inj hinst
    exact .inl ⟨inst₀, hinst₀, Config.step_roster hc⟩

theorem reachable_rostered (hX : X.Lawful) (h : (nodeMachine X).Reachable n) {inst : Instance X}
    (hinst : n.mpcOrchestrator = some inst) : inst.orch.Rostered := by
  have hall : ∀ inst, n.mpcOrchestrator = some inst → inst.orch.Rostered := by
    apply h.induct (I := fun n => ∀ inst, n.mpcOrchestrator = some inst → inst.orch.Rostered)
    · rintro _ ⟨id, rfl⟩ inst hinst
      cases hinst
    · intro n l n' hn hl inst hinst
      rcases (step_slot hl).2.2.roster hinst with ⟨inst₀, hinst₀, hroster⟩ | ⟨assignments, rfl⟩
      · exact (hn inst₀ hinst₀).of_roster hroster
      · exact MPCOrchestrator.rostered_ofAssignments hX n.id assignments
  exact hall inst hinst

end Node

/-- In every reachable node the installed orchestrator is that of the node, gives the node an index,
and has the peers with an index as its participants, strictly sorted. So neither the keygen nor the
signing handler ever reports that the node is not in the assignment, whatever else has become of the
orchestrator when it runs. -/
theorem installed_orchestrator_wellFormed (hX : X.Lawful) {n : Node X}
    (h : (nodeMachine X).Reachable n) {inst : Instance X}
    (hinst : n.mpcOrchestrator = some inst) :
    inst.orch.localPeerId = n.id ∧ inst.orch.localPeerId ∈ inst.orch.partyAssignments ∧
    inst.orch.participants.Pairwise (· < ·) ∧
    (∀ p, p ∈ inst.orch.participants ↔ p ∈ inst.orch.partyAssignments) ∧
    ∀ o : MPCOrchestrator X, o.roster = inst.orch.roster → ∀ chan sender p,
      (∀ eid t total timestamp,
        (o.handleInitiateKeygen chan sender eid t total timestamp).result ≠
          .error (.notIncluded p)) ∧
      ∀ eid msg signers timestamp,
        (o.handleInitiateSigning chan sender eid msg signers timestamp).result ≠
          .error (.notInAssignments p) := by
  have hwell := (reachable_wellFormed hX.parsesPeers h).slot inst hinst
  have hrostered := Node.reachable_rostered hX h hinst
  have hlisted : inst.orch.localPeerId ∈ inst.orch.partyAssignments := by
    rw [hwell.here]
    exact hwell.listed
  refine ⟨hwell.here, hlisted, hrostered.sorted, hrostered.keys, ?_⟩
  intro o ho chan sender p
  obtain ⟨-, hassign, hlocal⟩ : o.participants = inst.orch.participants ∧
      o.partyAssignments = inst.orch.partyAssignments ∧
      o.localPeerId = inst.orch.localPeerId := by
    simpa [MPCOrchestrator.roster] using ho
  have hlisted' : o.localPeerId ∈ o.partyAssignments := by
    rw [hlocal, hassign]
    exact hlisted
  constructor
  · intro eid t total timestamp
    exact MPCOrchestrator.handleInitiateKeygen_ne_notIncluded hlisted' chan
  · intro eid msg signers timestamp
    exact MPCOrchestrator.handleInitiateSigning_ne_notInAssignments hlisted' chan

namespace TwoPeers

/-- Two peers, `a` and `b`; nothing else parses as a peer id. -/
def platform : Platform :=
  { Platform.plain with
    PeerId := Bool
    order := inferInstance
    peerToString p := if p then "b" else "a"
    parsePeer s := if s = "a" then some false else if s = "b" then some true else none }

theorem platform_lawful : platform.Lawful where
  parse_toString := by
    intro p
    cases p <;> rfl
  parse_inj := by
    intro s t p hs ht
    simp only [platform] at hs ht
    split_ifs at hs ht
    · next hs' ht' => rw [hs', ht']
    · cases hs.trans ht.symm
    · cases hs.trans ht.symm
    · next _ hs' _ ht' => rw [hs', ht']
  deserialize_serialize _ _ _ h := h.symm

/-- The node `b` is assigned an index by `a`, in a map that also lists what is not a peer. -/
def request : NodeLabel platform :=
  .receive (some false) true 0
    (.assignment (.request "a" (.ofEntries [("a", 0), ("a ", 1), ("b", 2), ("", 3)]) "a-0"))

end TwoPeers

/-- What does not parse is left out of the map and of the list. -/
theorem installed_orchestrator_skips : ∃ (n : Node TwoPeers.platform) (inst : Instance _),
    (nodeMachine TwoPeers.platform).run (.new true) [TwoPeers.request] = some n ∧
    n.mpcOrchestrator = some inst ∧ inst.orch.participants = [false, true] ∧
    inst.orch.participants.Pairwise (· < ·) ∧
    ∀ p, p ∈ inst.orch.participants ↔ p ∈ inst.orch.partyAssignments := by
  have hrun : ∃ (n : Node TwoPeers.platform) (inst : Instance _),
      (nodeMachine TwoPeers.platform).run (.new true) [TwoPeers.request] = some n ∧
      n.mpcOrchestrator = some inst ∧ inst.orch.participants = [false, true] :=
    ⟨_, _, rfl, rfl, rfl⟩
  obtain ⟨n, inst, hn, hinst, hparticipants⟩ := hrun
  have hwell := installed_orchestrator_wellFormed TwoPeers.platform_lawful
    ⟨_, _, ⟨true, rfl⟩, hn⟩ hinst
  exact ⟨n, inst, hn, hinst, hparticipants, hwell.2.2.1, hwell.2.2.2.1⟩

end P2pMpc
