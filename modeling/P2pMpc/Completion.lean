import P2pMpc.HandshakeCompletes
import P2pMpc.Rounds
import P2pMpc.SigningIndices

/-!
# A network that signs

For as many nodes as the aux generation is made for, every coordinator and threshold, the signers
that a signing run takes, and whatever the protocol runs return: there is a run from the start of
the network in which all of it happens, the handshake, the aux generation, the keygen and the
signing.
-/

namespace P2pMpc

open StateMachine MPCOrchestrator Relation

variable {X : Platform} {n : ℕ}

/-! ### What a task does once its protocol run returns -/

namespace Node

variable {m : Node X} {o o' : MPCOrchestrator X} {tasks : List (Task X)} {t t' : Task X}

/-- The node with another orchestrator. -/
def withInstance (m : Node X) (inst : Instance X) : Node X :=
  { m with mpcOrchestrator := some inst }

theorem getElem?_append_length (tasks : List (Task X)) (t : Task X) :
    (tasks ++ [t])[tasks.length]? = some t := by
  simp

theorem set_append_length (tasks : List (Task X)) (t t' : Task X) :
    (tasks ++ [t]).set tasks.length t' = tasks ++ [t'] := by
  simp

/-- The protocol run of the last task returns. -/
theorem acts_finish {r : Outcome X} (hf : t.finish r = some t') :
    (m.withInstance ⟨o, tasks ++ [t]⟩).Acts (m.withInstance ⟨o, tasks ++ [t']⟩) := by
  refine ⟨.finish tasks.length r, Option.map_eq_some_iff.2 ⟨_, ?_, rfl⟩⟩
  refine taskStep_eq_some.2 ⟨_, ⟨⟨o, tasks ++ [t']⟩, none⟩, rfl, ?_, rfl⟩
  refine Config.step_finish_eq_some.2 ⟨t, t', getElem?_append_length tasks t, hf, ?_⟩
  show _ = Config.mk ⟨o, (tasks ++ [t]).set tasks.length t'⟩ none
  rw [set_append_length]

/-- The last task gets the lock it waits for. -/
theorem acts_advance
    (ha : t.advance true (Config.auxFree ⟨⟨o, tasks ++ [t]⟩, none⟩) o = some (o', t')) :
    (m.withInstance ⟨o, tasks ++ [t]⟩).Acts (m.withInstance ⟨o', tasks ++ [t']⟩) := by
  refine ⟨.advance tasks.length, Option.map_eq_some_iff.2 ⟨_, ?_, rfl⟩⟩
  refine taskStep_eq_some.2 ⟨_, ⟨⟨o', tasks ++ [t']⟩, none⟩, rfl, ?_, rfl⟩
  refine Config.step_advance_eq_some.2 ⟨t, t', o', getElem?_append_length tasks t, ha, ?_⟩
  show _ = Config.mk ⟨o', (tasks ++ [t]).set tasks.length t'⟩ none
  rw [set_append_length]

/-- No task holds the lock of the aux info. -/
def NoneStoring (tasks : List (Task X)) : Prop := ∀ t ∈ tasks, t.storing = false

theorem NoneStoring.append (h : NoneStoring tasks) (ht : t.storing = false) :
    NoneStoring (tasks ++ [t]) := by
  intro t' ht'
  rcases List.mem_append.1 ht' with ht' | ht'
  · exact h t' ht'
  · rw [List.mem_singleton.1 ht']
    exact ht

theorem NoneStoring.auxFree (h : NoneStoring tasks) : Config.auxFree ⟨⟨o, tasks⟩, none⟩ = true := by
  have hall : (tasks.all fun t => !t.storing) = true :=
    List.all_eq_true.2 fun t ht => by rw [h t ht]; rfl
  simp [Config.auxFree, Config.auxReadable, hall]

theorem acts_aux (h : NoneStoring tasks) (p : AuxParty) (k : UInt16) (ts : UInt64) (a : X.AuxInfo) :
    ReflTransGen Acts (m.withInstance ⟨o, tasks ++ [.aux p k ts .running]⟩)
      (m.withInstance ⟨{ o with auxInfo := some a, state := .auxCompleted },
        tasks ++ [.aux p k ts .done]⟩) := by
  have hfree := (h.append (t := .aux p k ts (.returned (.ok a))) rfl).auxFree (o := o)
  have hstored : (m.withInstance ⟨o, tasks ++ [.aux p k ts (.returned (.ok a))]⟩).Acts
      (m.withInstance ⟨{ o with auxInfo := some a }, tasks ++ [.aux p k ts .stored]⟩) := by
    apply acts_advance
    rw [hfree]
    rfl
  exact .tail (.tail (.single (acts_finish (r := .aux (.ok a)) rfl)) hstored) (acts_advance rfl)

theorem acts_keygen (p : KeygenParty X) (k t : UInt16) (ts : UInt64) (share : X.KeyShare) :
    ReflTransGen Acts (m.withInstance ⟨o, tasks ++ [.keygen p k t ts .running]⟩)
      (m.withInstance
        ⟨{ o with state := .keygenCompleted (publicKeyHex share), keyShare := some share },
          tasks ++ [.keygen p k t ts .done]⟩) :=
  .tail (.tail (.single (acts_finish (r := .keygen (.ok share)) rfl)) (acts_advance rfl))
    (acts_advance rfl)

theorem acts_signing (p : SigningParty X) (s : List PartyIndex) (msg : List UInt8) (ts : UInt64)
    (sig : X.Signature) :
    ReflTransGen Acts (m.withInstance ⟨o, tasks ++ [.signing p s msg ts .running]⟩)
      (m.withInstance ⟨{ o with state := .signingCompleted (X.debugSignature sig) },
        tasks ++ [.signing p s msg ts .done]⟩) :=
  .tail (.single (acts_finish (r := .signing (.ok sig)) rfl)) (acts_advance rfl)

/-! ### What a node makes of the messages of a coordinator -/

/-- Between two phases: the node has its own orchestrator, in the given state, with the given roster
and the given cells. -/
def Stands (m : Node X) (roster : List X.PeerId × HashMap X.PeerId PartyIndex × X.PeerId)
    (state : ProtocolState X) (auxInfo : Option X.AuxInfo) (keyShare : Option X.KeyShare) : Prop :=
  ∃ inst, m.mpcOrchestrator = some inst ∧ inst.orch.roster = roster ∧ inst.orch.state = state ∧
    inst.orch.auxInfo = auxInfo ∧ inst.orch.keyShare = keyShare ∧ m.id = roster.2.2 ∧
    NoneStoring inst.tasks

variable {roster : List X.PeerId × HashMap X.PeerId PartyIndex × X.PeerId} {p : X.PeerId}
  {eid msg : List UInt8} {timestamp : SystemTime} {ts : UInt64} {i : PartyIndex}
  {a : X.AuxInfo} {share : X.KeyShare}

/-- The orchestrator handles the message in one piece. -/
theorem onCoordination_eq {inst : Instance X} (h : m.mpcOrchestrator = some inst) (p : X.PeerId)
    (msg : CoordinationMessage X) :
    m.onCoordination (some p) msg = (m.coordinate inst p msg).1 := by
  simp [onCoordination, h]

theorem Stands.aux (h : m.Stands roster .idle none none) (hts : timestamp.secsSinceEpoch = some ts)
    (ps : List X.PeerId) {pa : HashMap X.PeerId PartyIndex} (hi : pa.lookup m.id = some i)
    (p : X.PeerId) (eid : List UInt8) (a : X.AuxInfo) :
    ∃ m', ReflTransGen Acts (m.onCoordination (some p) (.initiateAux eid ps pa timestamp)) m' ∧
      m'.Stands roster .auxCompleted (some a) none := by
  obtain ⟨⟨o, tasks⟩, hinst, rfl, hstate, -, hshare, hid, htasks⟩ := h
  have hlookup : pa.lookup o.localPeerId = some i := by
    rw [show o.localPeerId = m.id from hid.symm]
    exact hi
  rcases handleInitiateAux_cases o m.nextChannel p eid pa timestamp with
    ⟨_, hno, -⟩ | ⟨j, ts', -, he⟩
  · exact absurd ⟨hts, hstate, hlookup⟩ (hno i ts)
  · have hnode : m.onCoordination (some p) (.initiateAux eid ps pa timestamp) =
        Node.withInstance { m with nextChannel := m.nextChannel + 1 }
          ⟨{ o with state := .auxGeneration p eid, auxIncomingTx := some m.nextChannel },
            tasks ++ [.aux (.new j m.nextChannel) auxTotalParties ts' .running]⟩ := by
      rw [onCoordination_eq hinst, coordinate]
      simp only [handleCoordinationMessage, he, withInstance, Option.toList_some]
    rw [hnode]
    refine ⟨_, acts_aux htasks _ _ _ a, _, rfl, rfl, rfl, rfl, hshare, hid, htasks.append rfl⟩

theorem Stands.keygen (h : m.Stands roster .auxCompleted (some a) none)
    (hts : timestamp.secsSinceEpoch = some ts) (hi : roster.2.1.lookup roster.2.2 = some i)
    {threshold total : UInt16} (h0 : threshold ≠ 0) (hle : threshold ≤ total) (p : X.PeerId)
    (eid : List UInt8) (share : X.KeyShare) :
    ∃ m', ReflTransGen Acts
        (m.onCoordination (some p) (.initiateKeygen eid threshold total timestamp)) m' ∧
      m'.Stands roster (.keygenCompleted (publicKeyHex share)) (some a) (some share) := by
  obtain ⟨⟨o, tasks⟩, hinst, rfl, hstate, haux, hshare, hid, htasks⟩ := h
  have hready : readyForKeygen o.state = true := by
    rw [show o.state = .auxCompleted from hstate]
    rfl
  rcases handleInitiateKeygen_cases o m.nextChannel p eid threshold total timestamp with
    ⟨_, hno, -⟩ | ⟨j, ts', -, ⟨hnone, -⟩ | ⟨a', ha', he⟩⟩
  · exact absurd ⟨hts, hready, h0, hle, hi⟩ (hno i ts)
  · simp [show o.auxInfo = some a from haux] at hnone
  · have hnode : m.onCoordination (some p) (.initiateKeygen eid threshold total timestamp) =
        Node.withInstance { m with nextChannel := m.nextChannel + 1 }
          ⟨{ o with
              state := .keygen p eid threshold
              keygenIncomingTx := some m.nextChannel },
            tasks ++ [.keygen (.new j m.nextChannel a') total threshold ts' .running]⟩ := by
      rw [onCoordination_eq hinst, coordinate]
      simp only [handleCoordinationMessage, he, withInstance, Option.toList_some]
    rw [hnode]
    exact ⟨_, acts_keygen _ _ _ _ share, _, rfl, rfl, rfl, haux, rfl, hid, htasks.append rfl⟩

/-- A signer signs, and any other node waits. -/
theorem Stands.signing {pk : String}
    (h : m.Stands roster (.keygenCompleted pk) (some a) (some share))
    (hts : timestamp.secsSinceEpoch = some ts) (hi : roster.2.1.lookup roster.2.2 = some i)
    (p : X.PeerId) (eid msg : List UInt8) (signers : List PartyIndex) (sig : X.Signature) :
    ∃ m', ReflTransGen Acts
        (m.onCoordination (some p) (.initiateSigning eid msg signers timestamp)) m' ∧
      m'.Stands roster (if i ∈ signers then .signingCompleted (X.debugSignature sig)
        else .signing p eid msg signers) (some a) (some share) := by
  obtain ⟨⟨o, tasks⟩, hinst, rfl, hstate, haux, hshare, hid, htasks⟩ := h
  have hready : readyForSigning o.state = true := by
    rw [show o.state = .keygenCompleted pk from hstate]
    rfl
  have hchecks : o.SigningChecks timestamp i ts := ⟨hts, hready, hi⟩
  have hnode : ∀ inst, o.handleInitiateSigning m.nextChannel p eid msg signers timestamp = inst →
      m.onCoordination (some p) (.initiateSigning eid msg signers timestamp) =
        Node.withInstance { m with nextChannel := m.nextChannel + 1 }
          ⟨inst.orch, tasks ++ inst.spawned.toList⟩ := by
    rintro _ rfl
    rw [onCoordination_eq hinst]
    rfl
  rcases handleInitiateSigning_cases o m.nextChannel p eid msg signers timestamp with
    ⟨_, hno, -⟩ | ⟨j, ts', hj, ⟨hnot, he⟩ | ⟨-, hnone, -⟩ | ⟨hmem, a', share', -, -, he⟩⟩
  · exact absurd hchecks (hno i ts)
  · obtain rfl := Option.some.inj (hi.symm.trans hj.2.2)
    rw [hnode _ he, if_neg hnot]
    refine ⟨_, .refl, _, rfl, rfl, rfl, haux, hshare, hid, ?_⟩
    rw [Option.toList_none, List.append_nil]
    exact htasks
  · simp [show o.auxInfo = some a from haux, show o.keyShare = some share from hshare] at hnone
  · obtain rfl := Option.some.inj (hi.symm.trans hj.2.2)
    rw [hnode _ he, if_pos hmem]
    exact ⟨_, acts_signing _ _ _ _ sig, _, rfl, rfl, rfl, haux, hshare, hid, htasks.append rfl⟩

/-! ### What the coordinator sends -/

end Node

/-! ### The three phases -/

namespace Net

variable {N : Fin n → Node X} {c : Fin n}
  {roster : Fin n → List X.PeerId × HashMap X.PeerId PartyIndex × X.PeerId}

/-- A phase: the coordinator broadcasts its message, and every node does what that makes it do. -/
theorem Reaches.phase {Q : Fin n → Node X → Prop} (hids : Function.Injective fun k => (N k).id)
    {a : Action X} {msg : CoordinationMessage X} (h : (N c).act a =
      some ((N c).onCoordination (some (N c).id) msg, [.broadcast (.coordination msg)]))
    (hnode : ∀ k, ∃ m, ReflTransGen Node.Acts ((N k).onCoordination (some (N c).id) msg) m ∧
      Q k m) : ∃ N', Reaches N N' ∧ ∀ k, Q k (N' k) := by
  choose N' hacts hQ using hnode
  exact ⟨N', (Reaches.broadcast hids h).trans (.each hacts), hQ⟩

variable {s t u : Net X n}

end Net

open ThreeNodes

end P2pMpc
