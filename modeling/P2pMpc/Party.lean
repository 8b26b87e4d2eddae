import P2pMpc.Types

/-!
# The parties of the three protocols

`aux_party.rs`, `keygen_party.rs` and `signing_party.rs` wrap one call into cggmp24 each. What a
party decides is the arguments of that call, so `generateAuxInfo`, `generateKeyShare` and
`signMessage` return them; what the protocol answers is chosen by the environment when the task
that runs the party is stepped.
-/

namespace P2pMpc

/-- `u16::to_be_bytes`. -/
def u16ToBeBytes (n : UInt16) : List UInt8 := [(n >>> 8).toUInt8, n.toUInt8]

/-- `u64::to_be_bytes`. -/
def u64ToBeBytes (t : UInt64) : List UInt8 :=
  [(t >>> 56).toUInt8, (t >>> 48).toUInt8, (t >>> 40).toUInt8, (t >>> 32).toUInt8,
    (t >>> 24).toUInt8, (t >>> 16).toUInt8, (t >>> 8).toUInt8, t.toUInt8]

/-- The body shared by the three `create_shared_execution_id` functions. -/
def sharedExecutionId (protocol : String) (n : UInt16) (timestamp : UInt64) : List UInt8 :=
  protocol.toUTF8.data.toList ++ u16ToBeBytes n ++ u64ToBeBytes timestamp

/-- Two numbers that agree in front of a byte and in the byte agree up to its end. -/
theorem div_pow_eq_of_byte {m n : ℕ} (k : ℕ) (hfront : m / 2 ^ (k + 8) = n / 2 ^ (k + 8))
    (hbyte : m / 2 ^ k % 2 ^ 8 = n / 2 ^ k % 2 ^ 8) : m / 2 ^ k = n / 2 ^ k := by
  rw [pow_add, ← Nat.div_div_eq_div_mul, ← Nat.div_div_eq_div_mul] at hfront
  exact Nat.ext_div_mod hfront hbyte

theorem u16ToBeBytes_injective : Function.Injective u16ToBeBytes := by
  intro m n h
  simp only [u16ToBeBytes, List.cons.injEq, and_true] at h
  simp only [← UInt8.toNat_inj, UInt16.toNat_toUInt8, UInt16.toNat_shiftRight,
    Nat.shiftRight_eq_div_pow, UInt16.reduceToNat, Nat.reduceMod] at h
  obtain ⟨h₁, h₀⟩ := h
  have h : m.toNat / 2 ^ 16 = n.toNat / 2 ^ 16 := by
    rw [Nat.div_eq_of_lt m.toNat_lt, Nat.div_eq_of_lt n.toNat_lt]
  have h := div_pow_eq_of_byte 8 h h₁
  exact UInt16.toNat_inj.1 (Nat.ext_div_mod h h₀)

theorem u64ToBeBytes_injective : Function.Injective u64ToBeBytes := by
  intro m n h
  simp only [u64ToBeBytes, List.cons.injEq, and_true] at h
  simp only [← UInt8.toNat_inj, UInt64.toNat_toUInt8, UInt64.toNat_shiftRight,
    Nat.shiftRight_eq_div_pow, UInt64.reduceToNat, Nat.reduceMod] at h
  obtain ⟨h₇, h₆, h₅, h₄, h₃, h₂, h₁, h₀⟩ := h
  -- from the front, where nothing is left, byte by byte
  have h : m.toNat / 2 ^ 64 = n.toNat / 2 ^ 64 := by
    rw [Nat.div_eq_of_lt m.toNat_lt, Nat.div_eq_of_lt n.toNat_lt]
  have h := div_pow_eq_of_byte 56 h h₇
  have h := div_pow_eq_of_byte 48 h h₆
  have h := div_pow_eq_of_byte 40 h h₅
  have h := div_pow_eq_of_byte 32 h h₄
  have h := div_pow_eq_of_byte 24 h h₃
  have h := div_pow_eq_of_byte 16 h h₂
  have h := div_pow_eq_of_byte 8 h h₁
  exact UInt64.toNat_inj.1 (Nat.ext_div_mod h h₀)

theorem length_u16ToBeBytes (n : UInt16) : (u16ToBeBytes n).length = 2 := rfl

theorem length_u64ToBeBytes (t : UInt64) : (u64ToBeBytes t).length = 8 := rfl

/-- The name comes first and has any length, so it is told apart from the rest by the fixed width of
the two integers behind it. -/
theorem sharedExecutionId_inj {p q : String} {m n : UInt16} {s t : UInt64} :
    sharedExecutionId p m s = sharedExecutionId q n t ↔ p = q ∧ m = n ∧ s = t := by
  constructor
  · intro h
    have hsecs := (length_u64ToBeBytes s).trans (length_u64ToBeBytes t).symm
    have hcount := (length_u16ToBeBytes m).trans (length_u16ToBeBytes n).symm
    obtain ⟨hfront, hsecs⟩ := List.append_inj' h hsecs
    obtain ⟨hname, hcount⟩ := List.append_inj' hfront hcount
    refine ⟨?_, u16ToBeBytes_injective hcount, u64ToBeBytes_injective hsecs⟩
    exact String.toByteArray_inj.1 (ByteArray.ext (Array.toList_inj.1 hname))
  · rintro ⟨rfl, rfl, rfl⟩
    rfl

/-! ### Aux generation -/

/-- `AuxParty`, with the channel its `message_rx` is the receiver of. -/
structure AuxParty where
  id : PartyIndex
  index : PartyIndex
  messageRx : ChannelId

/-- The arguments of `cggmp24::aux_info_gen`. -/
structure AuxInfoGenCall where
  eid : List UInt8
  i : PartyIndex
  n : UInt16

namespace AuxParty

/-- `AuxParty::new`. -/
def new (id : PartyIndex) (messageRx : ChannelId) : AuxParty := ⟨id, id, messageRx⟩

/-- `AuxParty::create_shared_execution_id`. -/
def createSharedExecutionId := sharedExecutionId

/-- `AuxParty::generate_aux_info`: the protocol run it starts. -/
def generateAuxInfo (p : AuxParty) (n : UInt16) (timestamp : UInt64) : AuxInfoGenCall where
  eid := createSharedExecutionId "aux_gen" n timestamp
  i := p.id
  n := n

end AuxParty

/-! ### Keygen -/

/-- `KeygenParty`. -/
structure KeygenParty (X : Platform) where
  id : PartyIndex
  index : PartyIndex
  messageRx : ChannelId
  auxInfo : X.AuxInfo

/-- The arguments of `cggmp24::keygen` and of its `set_threshold`. -/
structure KeygenCall where
  eid : List UInt8
  i : PartyIndex
  n : UInt16
  t : UInt16

namespace KeygenParty

variable {X : Platform}

/-- `KeygenParty::new`. -/
def new (id : PartyIndex) (messageRx : ChannelId) (auxInfo : X.AuxInfo) : KeygenParty X :=
  ⟨id, id, messageRx, auxInfo⟩

/-- `KeygenParty::create_shared_execution_id`. -/
def createSharedExecutionId := sharedExecutionId

/-- `KeygenParty::generate_key_share`: the protocol run it starts. -/
def generateKeyShare (p : KeygenParty X) (n t : UInt16) (timestamp : UInt64) : KeygenCall where
  eid := createSharedExecutionId "keygen" n timestamp
  i := p.id
  n := n
  t := t

end KeygenParty

/-! ### Signing -/

/-- `SigningParty`. -/
structure SigningParty (X : Platform) where
  id : PartyIndex
  index : PartyIndex
  messageRx : ChannelId
  keyShare : X.KeyShare
  auxInfo : X.AuxInfo

/-- The arguments of `cggmp24::signing` and the message whose SHA-256 digest is signed. -/
structure SigningCall (X : Platform) where
  eid : List UInt8
  i : PartyIndex
  partiesIndexesAtKeygen : List PartyIndex
  keyShare : X.KeyShare
  dataToSign : List UInt8

namespace SigningParty

variable {X : Platform}

/-- `SigningParty::new`. -/
def new (id : PartyIndex) (messageRx : ChannelId) (keyShare : X.KeyShare)
    (auxInfo : X.AuxInfo) : SigningParty X :=
  ⟨id, id, messageRx, keyShare, auxInfo⟩

/-- `SigningParty::create_shared_execution_id`. -/
def createSharedExecutionId := sharedExecutionId

/-- `SigningParty::sign_message`: the protocol run it starts. -/
def signMessage (p : SigningParty X) (signers : List PartyIndex) (message : List UInt8)
    (timestamp : UInt64) : SigningCall X where
  eid := createSharedExecutionId "signing" (UInt16.ofNat signers.length) timestamp
  i := p.id
  partiesIndexesAtKeygen := signers
  keyShare := p.keyShare
  dataToSign := message

end SigningParty

/-! ### Tasks -/

/-- Where a spawned aux task stands. On success it stores the aux info and keeps that lock while
it waits for the state lock. -/
inductive AuxPc (X : Platform)
  | running
  | returned (r : Except String X.AuxInfo)
  | stored
  | done

/-- Where a spawned keygen task stands. On success it writes the state, releases that lock, and
only then takes the lock of the key share. -/
inductive KeygenPc (X : Platform)
  | running
  | returned (r : Except String X.KeyShare)
  | published (share : X.KeyShare)
  | done

/-- Where a spawned signing task stands. -/
inductive SigningPc (X : Platform)
  | running
  | returned (r : Except String X.Signature)
  | done

/-- A spawned task: its party, the arguments it calls the party with, and where it stands. -/
inductive Task (X : Platform)
  | aux (party : AuxParty) (n : UInt16) (timestamp : UInt64) (pc : AuxPc X)
  | keygen (party : KeygenParty X) (n t : UInt16) (timestamp : UInt64) (pc : KeygenPc X)
  | signing (party : SigningParty X) (signers : List PartyIndex) (message : List UInt8)
      (timestamp : UInt64) (pc : SigningPc X)

end P2pMpc
