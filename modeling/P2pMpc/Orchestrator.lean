import P2pMpc.Party

/-!
# The orchestrator and its coordination handlers

`MPCOrchestrator` with the contents of its `state`, `aux_info` and `key_share` cells, and the
handlers behind `handle_coordination_message`, each written in the order of its source.

A handler runs under the state lock and, past its checks, waits for the locks of the two other
cells. `enterKeygen` and `enterSigning` are what it does under the state lock alone; `startKeygen`
and `startSigning` are what follows once the cells are read. The channel a handler creates is
passed in, since its identity is chosen by the node.
-/

namespace P2pMpc

/-- `MPCOrchestrator`; the channel fields hold the identity of the channel they send to. -/
structure MPCOrchestrator (X : Platform) where
  state : ProtocolState X
  participants : List X.PeerId
  partyAssignments : HashMap X.PeerId PartyIndex
  localPeerId : X.PeerId
  auxIncomingTx : Option ChannelId
  keygenIncomingTx : Option ChannelId
  signingIncomingTx : Option ChannelId
  auxInfo : Option X.AuxInfo
  keyShare : Option X.KeyShare

/-- What a call of a handler leaves: the orchestrator, its result, and the task it spawned. -/
structure Reply (X : Platform) where
  orch : MPCOrchestrator X
  result : Except (HandlerError X) Unit
  spawned : Option (Task X)

namespace MPCOrchestrator

variable {X : Platform}

/-- `MPCOrchestrator::new`. -/
def new (localPeerId : X.PeerId) (participants : List X.PeerId)
    (partyAssignments : HashMap X.PeerId PartyIndex) : MPCOrchestrator X where
  state := .idle
  participants := participants
  partyAssignments := partyAssignments
  localPeerId := localPeerId
  auxIncomingTx := none
  keygenIncomingTx := none
  signingIncomingTx := none
  auxInfo := none
  keyShare := none

/-- `local_party_index`. -/
def localPartyIndex (o : MPCOrchestrator X) : Option PartyIndex :=
  o.partyAssignments.lookup o.localPeerId

/-- `create_execution_id`. -/
def createExecutionId (phase : String) (timestamp : SystemTime) : List UInt8 :=
  (phase ++ "-" ++ timestamp.debug).toUTF8.data.toList

/-- The sender of the incoming messages of a phase. -/
def incomingTx (o : MPCOrchestrator X) : Phase → Option ChannelId
  | .aux => o.auxIncomingTx
  | .keygen => o.keygenIncomingTx
  | .signing => o.signingIncomingTx

/-- The number of parties the aux handler hardcodes. -/
def auxTotalParties : UInt16 := 3

/-- `handle_initiate_aux`. -/
def handleInitiateAux (o : MPCOrchestrator X) (chan : ChannelId) (sender : X.PeerId)
    (executionId : List UInt8) (partyAssignments : HashMap X.PeerId PartyIndex)
    (timestamp : SystemTime) : Reply X :=
  match timestamp.secsSinceEpoch with
  | none => ⟨o, .error .invalidTimestamp, none⟩
  | some timestampSecs =>
    match o.state with
    | .idle =>
      -- the index is looked up in the message's map, not in the orchestrator's
      match partyAssignments.lookup o.localPeerId with
      | none => ⟨o, .error (.notIncluded o.localPeerId), none⟩
      | some ourPartyIndex =>
        ⟨{ o with
            state := .auxGeneration sender executionId
            auxIncomingTx := some chan },
          .ok (),
          some (.aux (.new ourPartyIndex chan) auxTotalParties timestampSecs .running)⟩
    | s => ⟨o, .error (.auxState s), none⟩

/-- The states from which keygen may start. -/
def readyForKeygen : ProtocolState X → Bool
  | .auxCompleted => true
  | .idle => true
  | _ => false

/-- The states from which signing may start. -/
def readyForSigning : ProtocolState X → Bool
  | .keygenCompleted _ => true
  | .idle => true
  | _ => false

/-- `handle_initiate_keygen`, steps 1 to 5: the checks and the state write. -/
def enterKeygen (o : MPCOrchestrator X) (sender : X.PeerId) (executionId : List UInt8)
    (threshold totalParties : UInt16) (timestamp : SystemTime) :
    Except (HandlerError X) (MPCOrchestrator X × PartyIndex × UInt64) :=
  match timestamp.secsSinceEpoch with
  | none => .error .invalidTimestamp
  | some timestampSecs =>
    if readyForKeygen o.state then
      if threshold = 0 then .error .thresholdZero
      else if threshold > totalParties then .error (.thresholdExceeds threshold totalParties)
      else
        match o.partyAssignments.lookup o.localPeerId with
        | none => .error (.notIncluded o.localPeerId)
        | some ourPartyIndex =>
          .ok ({ o with state := .keygen sender executionId threshold }, ourPartyIndex,
            timestampSecs)
    else .error (.keygenState o.state)

/-- `handle_initiate_keygen`, from the read of the aux info on. -/
def startKeygen (o : MPCOrchestrator X) (chan : ChannelId) (ourPartyIndex : PartyIndex)
    (threshold totalParties : UInt16) (timestampSecs : UInt64) : Reply X :=
  match o.auxInfo with
  | none => ⟨o, .error .auxInfoMissing, none⟩
  | some auxInfo =>
    ⟨{ o with keygenIncomingTx := some chan }, .ok (),
      some (.keygen (.new ourPartyIndex chan auxInfo) totalParties threshold timestampSecs
        .running)⟩

/-- `handle_initiate_keygen`. -/
def handleInitiateKeygen (o : MPCOrchestrator X) (chan : ChannelId) (sender : X.PeerId)
    (executionId : List UInt8) (threshold totalParties : UInt16) (timestamp : SystemTime) :
    Reply X :=
  match o.enterKeygen sender executionId threshold totalParties timestamp with
  | .error e => ⟨o, .error e, none⟩
  | .ok (o', ourPartyIndex, timestampSecs) =>
    o'.startKeygen chan ourPartyIndex threshold totalParties timestampSecs

/-- `handle_initiate_signing`, steps 1 to 4: the checks and the state write. -/
def enterSigning (o : MPCOrchestrator X) (sender : X.PeerId) (executionId message : List UInt8)
    (signers : List PartyIndex) (timestamp : SystemTime) :
    Except (HandlerError X) (MPCOrchestrator X × PartyIndex × UInt64) :=
  match timestamp.secsSinceEpoch with
  | none => .error .invalidTimestamp
  | some timestampSecs =>
    if readyForSigning o.state then
      match o.partyAssignments.lookup o.localPeerId with
      | none => .error (.notInAssignments o.localPeerId)
      | some ourPartyIdx =>
        .ok ({ o with state := .signing sender executionId message signers }, ourPartyIdx,
          timestampSecs)
    else .error (.signingState o.state)

/-- `handle_initiate_signing`, a signer's read of the aux info. -/
def readAuxInfo (o : MPCOrchestrator X) : Except (HandlerError X) X.AuxInfo :=
  match o.auxInfo with
  | none => .error .auxInfoMissing
  | some auxInfo => .ok auxInfo

/-- `handle_initiate_signing`, from a signer's read of the key share on. -/
def startSigning (o : MPCOrchestrator X) (chan : ChannelId) (ourPartyIdx : PartyIndex)
    (auxInfo : X.AuxInfo) (message : List UInt8) (signers : List PartyIndex)
    (timestampSecs : UInt64) : Reply X :=
  match o.keyShare with
  | none => ⟨o, .error .keyShareMissing, none⟩
  | some keyShare =>
    ⟨{ o with signingIncomingTx := some chan }, .ok (),
      some (.signing (.new ourPartyIdx chan keyShare auxInfo) signers message timestampSecs
        .running)⟩

/-- `handle_initiate_signing`. -/
def handleInitiateSigning (o : MPCOrchestrator X) (chan : ChannelId) (sender : X.PeerId)
    (executionId message : List UInt8) (signers : List PartyIndex) (timestamp : SystemTime) :
    Reply X :=
  match o.enterSigning sender executionId message signers timestamp with
  | .error e => ⟨o, .error e, none⟩
  | .ok (o', ourPartyIdx, timestampSecs) =>
    if ourPartyIdx ∈ signers then
      match o'.readAuxInfo with
      | .error e => ⟨o', .error e, none⟩
      | .ok auxInfo => o'.startSigning chan ourPartyIdx auxInfo message signers timestampSecs
    else ⟨o', .ok (), none⟩

/-- `handle_coordination_message`. The four report messages are only logged. -/
def handleCoordinationMessage (o : MPCOrchestrator X) (chan : ChannelId) (sender : X.PeerId) :
    CoordinationMessage X → Reply X
  | .initiateAux executionId _ partyAssignments timestamp =>
      o.handleInitiateAux chan sender executionId partyAssignments timestamp
  | .auxCompleted _ _ => ⟨o, .ok (), none⟩
  | .initiateKeygen executionId threshold totalParties timestamp =>
      o.handleInitiateKeygen chan sender executionId threshold totalParties timestamp
  | .keygenCompleted _ _ _ => ⟨o, .ok (), none⟩
  | .initiateSigning executionId message signers timestamp =>
      o.handleInitiateSigning chan sender executionId message signers timestamp
  | .signingCompleted _ _ _ => ⟨o, .ok (), none⟩
  | .protocolFailed _ _ _ => ⟨o, .ok (), none⟩

/-! ### What a handler can do -/

section Spec

variable {o o' : MPCOrchestrator X} {chan : ChannelId} {sender : X.PeerId}
  {executionId message : List UInt8} {threshold totalParties : UInt16}
  {signers : List PartyIndex} {timestamp : SystemTime} {i : PartyIndex} {ts : UInt64}

/-- The checks of `handle_initiate_aux`, all of which come before its state write. -/
def AuxChecks (o : MPCOrchestrator X) (partyAssignments : HashMap X.PeerId PartyIndex)
    (timestamp : SystemTime) (i : PartyIndex) (ts : UInt64) : Prop :=
  timestamp.secsSinceEpoch = some ts ∧ o.state = .idle ∧
    partyAssignments.lookup o.localPeerId = some i

/-- The checks of `handle_initiate_keygen` that come before its state write. -/
def KeygenChecks (o : MPCOrchestrator X) (threshold totalParties : UInt16)
    (timestamp : SystemTime) (i : PartyIndex) (ts : UInt64) : Prop :=
  timestamp.secsSinceEpoch = some ts ∧ readyForKeygen o.state = true ∧ threshold ≠ 0 ∧
    threshold ≤ totalParties ∧ o.localPartyIndex = some i

/-- The checks of `handle_initiate_signing` that come before its state write. -/
def SigningChecks (o : MPCOrchestrator X) (timestamp : SystemTime) (i : PartyIndex)
    (ts : UInt64) : Prop :=
  timestamp.secsSinceEpoch = some ts ∧ readyForSigning o.state = true ∧
    o.localPartyIndex = some i

/-- The message passes the checks made before the state write. -/
def Enters (o : MPCOrchestrator X) : CoordinationMessage X → Prop
  | .initiateAux _ _ partyAssignments timestamp =>
      ∃ i ts, o.AuxChecks partyAssignments timestamp i ts
  | .initiateKeygen _ threshold totalParties timestamp =>
      ∃ i ts, o.KeygenChecks threshold totalParties timestamp i ts
  | .initiateSigning _ _ _ timestamp => ∃ i ts, o.SigningChecks timestamp i ts
  | _ => False

/-- A message is only let in from `Idle` or from a state that is ready for its phase. -/
theorem Enters.ready {msg : CoordinationMessage X} (h : o.Enters msg) :
    o.state = .idle ∨ readyForKeygen o.state = true ∨ readyForSigning o.state = true := by
  cases msg with
  | initiateAux =>
    obtain ⟨i, ts, hc⟩ := h
    exact .inl hc.2.1
  | initiateKeygen =>
    obtain ⟨i, ts, hc⟩ := h
    exact .inr (.inl hc.2.1)
  | initiateSigning =>
    obtain ⟨i, ts, hc⟩ := h
    exact .inr (.inr hc.2.1)
  | _ => exact h.elim

theorem enterKeygen_eq_ok :
    o.enterKeygen sender executionId threshold totalParties timestamp = .ok (o', i, ts) ↔
      o.KeygenChecks threshold totalParties timestamp i ts ∧
        o' = { o with state := .keygen sender executionId threshold } := by
  unfold enterKeygen KeygenChecks localPartyIndex
  cases hts : timestamp.secsSinceEpoch with
  | none => simp
  | some t =>
    cases hi : o.partyAssignments.lookup o.localPeerId with
    | none => dsimp only; split_ifs <;> simp
    | some j =>
      dsimp only
      split_ifs with h1 h2 h3
      · simp [h2]
      · have hle : ¬ threshold ≤ totalParties := UInt16.not_le.2 h3
        simp [hle]
      · have hle : threshold ≤ totalParties := UInt16.not_lt.1 h3
        simp only [Except.ok.injEq, Prod.mk.injEq, Option.some.injEq, ne_eq, h1, h2, hle]
        tauto
      · simp [h1]

theorem enterSigning_eq_ok :
    o.enterSigning sender executionId message signers timestamp = .ok (o', i, ts) ↔
      o.SigningChecks timestamp i ts ∧
        o' = { o with state := .signing sender executionId message signers } := by
  unfold enterSigning SigningChecks localPartyIndex
  cases hts : timestamp.secsSinceEpoch with
  | none => simp
  | some t =>
    cases hi : o.partyAssignments.lookup o.localPeerId with
    | none => dsimp only; split_ifs <;> simp
    | some j =>
      dsimp only
      split_ifs with h1
      · simp only [Except.ok.injEq, Prod.mk.injEq, Option.some.injEq, h1]
        tauto
      · simp [h1]

/-- An aux call is rejected without effect, or it spawns the aux task. -/
theorem handleInitiateAux_cases (o : MPCOrchestrator X) (chan : ChannelId) (sender : X.PeerId)
    (executionId : List UInt8) (pa : HashMap X.PeerId PartyIndex) (timestamp : SystemTime) :
    (∃ e, (∀ i ts, ¬ o.AuxChecks pa timestamp i ts) ∧
      o.handleInitiateAux chan sender executionId pa timestamp = ⟨o, .error e, none⟩) ∨
    (∃ i ts, o.AuxChecks pa timestamp i ts ∧
      o.handleInitiateAux chan sender executionId pa timestamp =
        ⟨{ o with state := .auxGeneration sender executionId, auxIncomingTx := some chan }, .ok (),
          some (.aux (.new i chan) auxTotalParties ts .running)⟩) := by
  unfold handleInitiateAux AuxChecks
  cases hts : timestamp.secsSinceEpoch with
  | none => exact .inl ⟨_, by simp, rfl⟩
  | some ts =>
    dsimp only
    split
    · next hs =>
      cases hi : pa.lookup o.localPeerId with
      | none => exact .inl ⟨_, by simp, rfl⟩
      | some i => exact .inr ⟨i, ts, ⟨rfl, hs, rfl⟩, rfl⟩
    · next hs => exact .inl ⟨_, fun i ts hc => hs hc.2.1, rfl⟩

/-- A keygen call is rejected, starts a task, or leaves the new state alone behind. -/
theorem handleInitiateKeygen_cases (o : MPCOrchestrator X) (chan : ChannelId) (sender : X.PeerId)
    (executionId : List UInt8) (threshold totalParties : UInt16) (timestamp : SystemTime) :
    (∃ e, (∀ i ts, ¬ o.KeygenChecks threshold totalParties timestamp i ts) ∧
      o.handleInitiateKeygen chan sender executionId threshold totalParties timestamp =
        ⟨o, .error e, none⟩) ∨
    ∃ i ts, o.KeygenChecks threshold totalParties timestamp i ts ∧
      ((o.auxInfo = none ∧
        o.handleInitiateKeygen chan sender executionId threshold totalParties timestamp =
          ⟨{ o with state := .keygen sender executionId threshold }, .error .auxInfoMissing,
            none⟩) ∨
      ∃ a, o.auxInfo = some a ∧
        o.handleInitiateKeygen chan sender executionId threshold totalParties timestamp =
          ⟨{ o with
              state := .keygen sender executionId threshold
              keygenIncomingTx := some chan },
            .ok (), some (.keygen (.new i chan a) totalParties threshold ts .running)⟩) := by
  unfold handleInitiateKeygen
  cases h : o.enterKeygen sender executionId threshold totalParties timestamp with
  | error e =>
    refine .inl ⟨e, fun i ts hc => ?_, rfl⟩
    rw [enterKeygen_eq_ok.2 ⟨hc, rfl⟩] at h
    cases h
  | ok r =>
    obtain ⟨o', i, ts⟩ := r
    obtain ⟨hc, rfl⟩ := enterKeygen_eq_ok.1 h
    refine .inr ⟨i, ts, hc, ?_⟩
    cases ha : o.auxInfo with
    | none => exact .inl ⟨rfl, by simp [startKeygen]⟩
    | some a => exact .inr ⟨a, rfl, by simp [startKeygen]⟩

/-- A signing call is rejected, starts a task, changes the state of an observer, or leaves the new
state alone behind. -/
theorem handleInitiateSigning_cases (o : MPCOrchestrator X) (chan : ChannelId)
    (sender : X.PeerId) (executionId message : List UInt8) (signers : List PartyIndex)
    (timestamp : SystemTime) :
    (∃ e, (∀ i ts, ¬ o.SigningChecks timestamp i ts) ∧
      o.handleInitiateSigning chan sender executionId message signers timestamp =
        ⟨o, .error e, none⟩) ∨
    ∃ i ts, o.SigningChecks timestamp i ts ∧
      ((i ∉ signers ∧
        o.handleInitiateSigning chan sender executionId message signers timestamp =
          ⟨{ o with state := .signing sender executionId message signers }, .ok (), none⟩) ∨
      (i ∈ signers ∧ (o.auxInfo = none ∨ o.keyShare = none) ∧
        o.handleInitiateSigning chan sender executionId message signers timestamp =
          ⟨{ o with state := .signing sender executionId message signers },
            .error (if o.auxInfo.isNone then .auxInfoMissing else .keyShareMissing), none⟩) ∨
      (i ∈ signers ∧ ∃ a share, o.auxInfo = some a ∧ o.keyShare = some share ∧
        o.handleInitiateSigning chan sender executionId message signers timestamp =
          ⟨{ o with
              state := .signing sender executionId message signers
              signingIncomingTx := some chan },
            .ok (), some (.signing (.new i chan share a) signers message ts .running)⟩)) := by
  unfold handleInitiateSigning
  cases h : o.enterSigning sender executionId message signers timestamp with
  | error e =>
    refine .inl ⟨e, fun i ts hc => ?_, rfl⟩
    rw [enterSigning_eq_ok.2 ⟨hc, rfl⟩] at h
    cases h
  | ok r =>
    obtain ⟨o', i, ts⟩ := r
    obtain ⟨hc, rfl⟩ := enterSigning_eq_ok.1 h
    refine .inr ⟨i, ts, hc, ?_⟩
    by_cases hi : i ∈ signers
    · cases ha : o.auxInfo with
      | none => exact .inr (.inl ⟨hi, .inl rfl, by simp [hi, readAuxInfo]⟩)
      | some a =>
        cases hk : o.keyShare with
        | none => exact .inr (.inl ⟨hi, .inr rfl, by simp [hi, readAuxInfo, startSigning]⟩)
        | some share =>
          exact .inr (.inr ⟨hi, a, share, rfl, rfl,
            by simp [hi, readAuxInfo, startSigning]⟩)
    · exact .inl ⟨hi, by simp [hi]⟩

end Spec

end MPCOrchestrator

end P2pMpc
