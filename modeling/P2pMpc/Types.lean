import Mathlib.Data.List.AList
import Mathlib.Data.String.Basic

/-!
# The data of a node

The program is written against types it does not define: libp2p's `PeerId`, cggmp24's `AuxInfo`,
`KeyShare`, `Signature` and protocol messages, and the bincode, base58 and hex codecs for them. They
are the fields of a `Platform`; what is assumed of the codecs is `Platform.Lawful` and is named
wherever it is used.

The rest follows `mpc/orchestrator.rs`: `ProtocolState`, `CoordinationMessage`, and the errors the
coordination handlers return, with their texts. Wall-clock readings that nothing reads back
(`started_at`, `completed_at`, `failed_at`) and the never-updated `completed_parties` and
`success_count` are left out of `ProtocolState`.
-/

namespace P2pMpc

/-- The three protocol phases whose messages cross the network. -/
inductive Phase
  | aux
  | keygen
  | signing
  deriving DecidableEq, Repr

/-- The third-party types and functions the program is written against. -/
structure Platform where
  PeerId : Type
  order : LinearOrder PeerId
  AuxInfo : Type
  KeyShare : Type
  Signature : Type
  Msg : Phase → Type
  /-- `PeerId::to_string`. -/
  peerToString : PeerId → String
  /-- `str::parse::<PeerId>`. -/
  parsePeer : String → Option PeerId
  /-- `shared_public_key.to_bytes(true)`. -/
  sharedPublicKey : KeyShare → List UInt8
  /-- `hex::encode`. -/
  hexEncode : List UInt8 → String
  /-- `format!("{:?}", signature)`. -/
  debugSignature : Signature → String
  /-- `bincode::serialize` on the message type of a phase. -/
  serialize : (φ : Phase) → Msg φ → Option (List UInt8)
  /-- `bincode::deserialize` at the message type of a phase. -/
  deserialize : (φ : Phase) → List UInt8 → Option (Msg φ)

instance (X : Platform) : LinearOrder X.PeerId := X.order

/-- What the program relies on: parsing a peer id inverts printing it and is injective, and
bincode reads back what it wrote. -/
structure Platform.Lawful (X : Platform) : Prop where
  parse_toString : ∀ p, X.parsePeer (X.peerToString p) = some p
  parse_inj : ∀ s t p, X.parsePeer s = some p → X.parsePeer t = some p → s = t
  deserialize_serialize : ∀ φ m b, X.serialize φ m = some b → X.deserialize φ b = some m

/-- Parsing a peer id inverts printing it. -/
def Platform.ParsesPeers (X : Platform) : Prop := ∀ p, X.parsePeer (X.peerToString p) = some p

theorem Platform.Lawful.parsesPeers {X : Platform} (hX : X.Lawful) : X.ParsesPeers :=
  hX.parse_toString

/-- Different peers are printed differently. -/
theorem Platform.ParsesPeers.injective {X : Platform} (hX : X.ParsesPeers) :
    Function.Injective X.peerToString := by
  intro p q h
  have hp := hX p
  rw [h, hX q] at hp
  exact (Option.some.inj hp).symm

/-- A platform on which runs can be evaluated: peers are named by strings and every other value is
its own encoding. -/
def Platform.plain : Platform where
  PeerId := String
  order := inferInstance
  AuxInfo := ℕ
  KeyShare := List UInt8
  Signature := String
  Msg _ := List UInt8
  peerToString p := p
  parsePeer s := some s
  sharedPublicKey share := share
  hexEncode bytes := String.ofList
    (bytes.flatMap fun b => [Nat.digitChar (b.toNat / 16), Nat.digitChar (b.toNat % 16)])
  debugSignature sig := sig
  serialize _ m := some m
  deserialize _ b := some b

theorem Platform.plain_lawful : Platform.plain.Lawful where
  parse_toString _ := rfl
  parse_inj _ _ _ hs ht := Option.some.inj (hs.trans ht.symm)
  deserialize_serialize _ _ _ h := h.symm

/-- A hash map; the order of its entries is the order an iteration meets them in. -/
abbrev HashMap (K V : Type) := AList fun _ : K => V

/-- The map a loop fills that inserts the entries in turn. -/
def HashMap.ofEntries {K V : Type} [DecidableEq K] (entries : List (K × V)) : HashMap K V :=
  entries.foldl (fun m e => m.insert e.1 e.2) ∅

/-- Entries with different keys are all kept. -/
theorem HashMap.entries_ofEntries {K V : Type} [DecidableEq K] {es : List (K × V)}
    (h : (es.map Prod.fst).Nodup) : (HashMap.ofEntries es).entries =
      (es.map fun e => (⟨e.1, e.2⟩ : Sigma fun _ : K => V)).reverse := by
  suffices hfold : ∀ m : HashMap K V, (∀ e ∈ es, e.1 ∉ m) →
      (es.foldl (fun m e => m.insert e.1 e.2) m).entries =
        (es.map fun e => (⟨e.1, e.2⟩ : Sigma fun _ : K => V)).reverse ++ m.entries by
    simpa [ofEntries] using hfold ∅ (by simp)
  induction es with
  | nil => simp
  | cons e es ih =>
    intro m hm
    obtain ⟨he, hes⟩ := List.nodup_cons.1 h
    have hnew : ∀ e' ∈ es, e'.1 ∉ m.insert e.1 e.2 := by
      intro e' he' hmem
      rcases (AList.mem_insert _).1 hmem with heq | hmem
      · exact he (heq ▸ List.mem_map_of_mem he')
      · exact hm e' (List.mem_cons_of_mem _ he') hmem
    rw [List.foldl_cons, ih hes _ hnew, AList.entries_insert_of_notMem (hm e List.mem_cons_self)]
    simp

/-- `PartyIndex` and `PartyId`, both `u16`. -/
abbrev PartyIndex := UInt16

/-- The identity of an `mpsc::unbounded_channel`, shared by its sender and its receiver. -/
abbrev ChannelId := ℕ

/-! ### `round_based` messages -/

inductive MessageDestination
  | allParties
  | oneParty (i : PartyIndex)
  deriving DecidableEq, Repr

/-- `round_based::Outgoing`. -/
structure Outgoing (α : Type) where
  recipient : MessageDestination
  msg : α

inductive MessageType
  | broadcast
  | p2p
  deriving DecidableEq, Repr

/-- `round_based::Incoming`. -/
structure Incoming (α : Type) where
  id : ℕ
  sender : PartyIndex
  msgType : MessageType
  msg : α

/-! ### Time -/

/-- `SystemTime`, in nanoseconds from the UNIX epoch. -/
structure SystemTime where
  nanos : ℤ
  deriving DecidableEq, Repr

/-- `duration_since(UNIX_EPOCH)` followed by `as_secs`; it fails before the epoch. -/
def SystemTime.secsSinceEpoch (t : SystemTime) : Option UInt64 :=
  if t.nanos < 0 then none else some (UInt64.ofNat (t.nanos.toNat / 1000000000))

/-- The derived `Debug` output. -/
def SystemTime.debug (t : SystemTime) : String :=
  "SystemTime \x7b tv_sec: " ++ toString (t.nanos / 1000000000) ++ ", tv_nsec: " ++
    toString (t.nanos % 1000000000) ++ " \x7d"

/-! ### Protocol state and coordination messages -/

/-- `ProtocolState`. -/
inductive ProtocolState (X : Platform)
  | idle
  | auxGeneration (initiator : X.PeerId) (executionId : List UInt8)
  | auxCompleted
  | keygen (initiator : X.PeerId) (executionId : List UInt8) (threshold : UInt16)
  | keygenCompleted (publicKey : String)
  | signing (initiator : X.PeerId) (executionId : List UInt8) (message : List UInt8)
      (signers : List PartyIndex)
  | signingCompleted (signature : String)
  | failed (phase reason : String)

/-- `CoordinationMessage`. -/
inductive CoordinationMessage (X : Platform)
  | initiateAux (executionId : List UInt8) (participants : List X.PeerId)
      (partyAssignments : HashMap X.PeerId PartyIndex) (timestamp : SystemTime)
  | auxCompleted (partyId : X.PeerId) (success : Bool)
  | initiateKeygen (executionId : List UInt8) (threshold totalParties : UInt16)
      (timestamp : SystemTime)
  | keygenCompleted (partyId : X.PeerId) (publicKey : List UInt8) (success : Bool)
  | initiateSigning (executionId : List UInt8) (message : List UInt8) (signers : List PartyIndex)
      (timestamp : SystemTime)
  | signingCompleted (partyId : X.PeerId) (signature : List UInt8) (success : Bool)
  | protocolFailed (partyId : X.PeerId) (phase error : String)

/-- The peer recorded as the initiator of the phase in progress. -/
def ProtocolState.initiator {X : Platform} : ProtocolState X → Option X.PeerId
  | .auxGeneration p _ => some p
  | .keygen p _ _ => some p
  | .signing p _ _ _ => some p
  | _ => none

/-- The errors of the coordination handlers, one constructor for each `Err` they return. -/
inductive HandlerError (X : Platform)
  | invalidTimestamp
  | auxState (state : ProtocolState X)
  | keygenState (state : ProtocolState X)
  | signingState (state : ProtocolState X)
  | thresholdZero
  | thresholdExceeds (threshold totalParties : UInt16)
  | notIncluded (peer : X.PeerId)
  | notInAssignments (peer : X.PeerId)
  | auxInfoMissing
  | keyShareMissing

/-- The text of an error; `debug` is the derived `Debug` output of a protocol state. -/
def HandlerError.text {X : Platform} (debug : ProtocolState X → String) : HandlerError X → String
  | .invalidTimestamp => "Invalid timestamp: second time provided was later than self"
  | .auxState s => "Cannot initiate aux generation. Current state: " ++ debug s
  | .keygenState s =>
      "Cannot initiate keygen. Must complete aux generation first. Current state: " ++ debug s
  | .signingState s =>
      "Cannot initiate signing. Must complete keygen first. Current state: " ++ debug s
  | .thresholdZero => "Threshold must be at least 1"
  | .thresholdExceeds t n => "Threshold (" ++ toString t.toNat ++ ") cannot exceed total parties ("
      ++ toString n.toNat ++ ")"
  | .notIncluded p => "Party assignments do not include our peer ID: " ++ X.peerToString p
  | .notInAssignments p => "Our peer ID not found in party assignments: " ++ X.peerToString p
  | .auxInfoMissing => "Aux info not available. Must complete aux generation first."
  | .keyShareMissing => "Key share info not available. Must complete key generation first."

/-- `hex::encode(key_share.shared_public_key.to_bytes(true))`. -/
def publicKeyHex {X : Platform} (share : X.KeyShare) : String :=
  X.hexEncode (X.sharedPublicKey share)

end P2pMpc
