import P2pMpc.Node

/-!
# The two numberings of the signers

In a signing run cggmp24 numbers the parties by their position in the list of signers: the local
index it is given, the recipients it addresses and the senders it is told are positions. The
program gives it the keygen index for the local index, delivers a message to the party whose keygen
index is the addressed position, and reports the keygen index of the sender. `SigningConsistent` is
what cggmp24 needs; `signing_consistent_iff` says that the program provides it just for the lists
`[0, 1, …, t - 1]`, on which the two numberings are the same.
-/

namespace P2pMpc

variable {X : Platform}

/-- The signers are `0, 1, …` in this order. -/
def IdentityOrder (signers : List PartyIndex) : Prop :=
  ∀ j (h : j < signers.length), signers[j].toNat = j

/-- An instance with the assignment `A` whose signing party is running and can be sent to. -/
def Instance.Signs (inst : Instance X) (A : HashMap X.PeerId PartyIndex) : Prop :=
  inst.orch.partyAssignments = A ∧
    ∃ chan, inst.orch.signingIncomingTx = some chan ∧ inst.receiverAlive .signing chan = true

/-- The party spawned for the signer `p` with the keygen index `k` is given the position of `k`. -/
def LocalIndexRight (A : HashMap X.PeerId PartyIndex) (signers : List PartyIndex) (p : X.PeerId)
    (k : PartyIndex) : Prop :=
  ∀ (o : MPCOrchestrator X) chan sender eid message timestamp party signers' message' ts pc,
    o.partyAssignments = A → o.localPeerId = p →
    (o.handleInitiateSigning chan sender eid message signers timestamp).spawned =
      some (.signing party signers' message' ts pc) →
    (party.signMessage signers' message' ts).partiesIndexesAtKeygen = signers ∧
      signers[(party.signMessage signers' message' ts).i.toNat]? = some k

/-- A message of `p` to the position `j` is forwarded, among the other nodes, exactly where the
keygen index is that of the signer at `j`. -/
def RecipientRight (A : HashMap X.PeerId PartyIndex) (signers : List PartyIndex) (p : X.PeerId) :
    Prop :=
  ∀ (j : PartyIndex) m w, j.toNat < signers.length →
    wrapOutgoing p .signing ⟨.oneParty j, m⟩ = some w →
    ∀ (q : X.PeerId) (inst : Instance X), q ≠ p → inst.Signs A →
      ((∃ r, forwardIncoming q (some inst) .signing w = .ok r) ↔
        A.lookup q = signers[j.toNat]?)

/-- The sender reported with a message of `p` is the position of its keygen index `k`. -/
def SenderRight (A : HashMap X.PeerId PartyIndex) (signers : List PartyIndex) (p : X.PeerId)
    (k : PartyIndex) : Prop :=
  ∀ out w, wrapOutgoing p .signing out = some w →
    ∀ (q : X.PeerId) (inst : Instance X) r, inst.Signs A →
      forwardIncoming q (some inst) .signing w = .ok r →
        signers[r.2.sender.toNat]? = some k

/-- A signing run with these signers, among nodes with the assignment `A`, keeps the contract of
cggmp24. -/
def SigningConsistent (A : HashMap X.PeerId PartyIndex) (signers : List PartyIndex) : Prop :=
  ∀ p k, A.lookup p = some k → k ∈ signers →
    LocalIndexRight A signers p k ∧ RecipientRight A signers p ∧ SenderRight A signers p k

/-- The assignment gives the indices below `n`, each to one peer. -/
structure Covers (A : HashMap X.PeerId PartyIndex) (n : ℕ) : Prop where
  lt : ∀ p i, A.lookup p = some i → i.toNat < n
  surj : ∀ i : PartyIndex, i.toNat < n → ∃ p, A.lookup p = some i
  inj : ∀ p q i, A.lookup p = some i → A.lookup q = some i → p = q

/-- The assignments that `assign_peer_indices` makes in any run, as any node adopts them, give the
indices below the number of participants to one peer each, as long as these fit in a `u16`. -/
theorem covers_createAssignments (hX : X.Lawful) {n : Node X} (h : (nodeMachine X).Reachable n)
    (hlen : n.peerList.length < 65536) (q : X.PeerId) :
    Covers (MPCOrchestrator.ofAssignments q n.createAssignments).partyAssignments
      (MPCOrchestrator.ofAssignments q n.createAssignments).participants.length := by
  have hn := reachable_peersDistinct h
  have hlookup := Node.lookup_createAssignments hX.parsesPeers hn q
  have hlt : ∀ {j : ℕ} {p : X.PeerId}, (n.id :: n.peerList)[j]? = some p →
      j < n.peerList.length + 1 := by
    intro j p hj
    obtain ⟨hj, -⟩ := List.getElem?_eq_some_iff.1 hj
    simpa using hj
  have htoNat : ∀ {j : ℕ}, j < n.peerList.length + 1 → (UInt16.ofNat j).toNat = j := by
    intro j hj
    exact UInt16.toNat_ofNat_of_lt' (show j < 65536 by omega)
  rw [Node.participants_createAssignments hX.parsesPeers hn q]
  constructor
  · intro p i hi
    obtain ⟨j, hj, rfl⟩ := (hlookup p i).1 hi
    rw [htoNat (hlt hj)]
    exact hlt hj
  · intro i hi
    have hi' : i.toNat < (n.id :: n.peerList).length := by simpa using hi
    refine ⟨(n.id :: n.peerList)[i.toNat], (hlookup _ i).2 ⟨i.toNat, ?_, UInt16.ofNat_toNat⟩⟩
    exact List.getElem?_eq_getElem hi'
  · intro p q' i hp hq'
    obtain ⟨j, hj, rfl⟩ := (hlookup p i).1 hp
    obtain ⟨j', hj', he⟩ := (hlookup q' _).1 hq'
    have hjj : j' = j := by
      rw [← htoNat (hlt hj'), he, htoNat (hlt hj)]
    subst hjj
    exact Option.some.inj (hj.symm.trans hj')

/-! ### What the program does with the indices -/

theorem getElem?_of_identityOrder {signers : List PartyIndex} (h : IdentityOrder signers)
    {j : PartyIndex} (hj : j.toNat < signers.length) : signers[j.toNat]? = some j := by
  rw [List.getElem?_eq_getElem hj, Option.some.injEq]
  exact UInt16.toNat_inj.1 (h j.toNat hj)

/-- In the list `0, 1, …` every signer stands at its own position. -/
theorem position_of_identityOrder {signers : List PartyIndex} (h : IdentityOrder signers)
    {k : PartyIndex} (hk : k ∈ signers) : signers[k.toNat]? = some k := by
  obtain ⟨j, hj, rfl⟩ := List.getElem_of_mem hk
  refine getElem?_of_identityOrder h ?_
  rw [h j hj]
  exact hj

section Program

variable {A : HashMap X.PeerId PartyIndex} {signers : List PartyIndex} {p q : X.PeerId}
  {k : PartyIndex}

/-- The local index is the keygen index: it is right for a signer that stands at it. -/
theorem localIndexRight_of (hp : A.lookup p = some k) (h : signers[k.toNat]? = some k) :
    LocalIndexRight A signers p k := by
  intro o chan sender eid message timestamp party signers' message' ts pc hA ho hspawn
  rcases o.handleInitiateSigning_cases chan sender eid message signers timestamp with
    ⟨_, -, he⟩ | ⟨i, _, hc, ⟨-, he⟩ | ⟨-, -, he⟩ | ⟨-, _, _, -, -, he⟩⟩ <;> rw [he] at hspawn
  · cases hspawn
  · cases hspawn
  · cases hspawn
  · cases hspawn
    have hi : some i = some k := by
      rw [← hp, ← hA, ← ho]
      exact hc.2.2.symm
    cases hi
    exact ⟨rfl, h⟩

/-- Only for such a signer is it right, where a signing can start at all. -/
theorem position_of_localIndexRight (share : X.KeyShare) (aux : X.AuxInfo)
    (hp : A.lookup p = some k) (hk : k ∈ signers) (h : LocalIndexRight A signers p k) :
    signers[k.toNat]? = some k := by
  let o : MPCOrchestrator X :=
    { MPCOrchestrator.new p [] A with
      state := .keygenCompleted ""
      auxInfo := some aux
      keyShare := some share }
  have hspawn : (o.handleInitiateSigning 0 p [] [] signers ⟨0⟩).spawned =
      some (.signing (.new k 0 share aux) signers [] 0 .running) := by
    simp [MPCOrchestrator.handleInitiateSigning, MPCOrchestrator.enterSigning, o,
      MPCOrchestrator.new, MPCOrchestrator.readyForSigning, SystemTime.secsSinceEpoch, hp, hk,
      MPCOrchestrator.readAuxInfo, MPCOrchestrator.startSigning]
  exact (h o 0 p [] [] ⟨0⟩ _ _ _ _ _ rfl rfl hspawn).2

/-- A message to the index `j` is forwarded where the keygen index is `j`. -/
theorem forwarded_iff (hX : X.Lawful) (hp : A.lookup p = some k) {j : PartyIndex}
    {m : X.Msg .signing} {w : MpcAuxMessage X}
    (hw : wrapOutgoing p .signing ⟨.oneParty j, m⟩ = some w) {inst : Instance X}
    (hinst : inst.Signs A) :
    (∃ r, forwardIncoming q (some inst) .signing w = .ok r) ↔ A.lookup q = some j := by
  obtain ⟨hA, chan, hchan, halive⟩ := hinst
  cases hb : X.serialize .signing m with
  | none => simp [wrapOutgoing, hb] at hw
  | some b =>
    simp only [wrapOutgoing, hb, Option.some.injEq] at hw
    subst hw
    have hm := hX.deserialize_serialize _ _ _ hb
    constructor
    · rintro ⟨r, hr⟩
      obtain ⟨i, _, _, _, hi, hfor, -⟩ := forwardIncoming_eq_ok.1 hr
      cases hi
      rw [hA] at hfor
      simpa [MpcAuxMessage.notFor] using hfor
    · intro hq
      refine ⟨_, forwardIncoming_eq_ok.2 ⟨inst, m, k, chan, rfl, ?_, hm, ?_, hchan, halive, rfl⟩⟩
      · rw [hA]
        simp [MpcAuxMessage.notFor, hq]
      · rw [hA]
        exact hp

/-- The reported sender is the keygen index. -/
theorem senderRight_of (hp : A.lookup p = some k) (h : signers[k.toNat]? = some k) :
    SenderRight A signers p k := by
  intro out w hw q inst r hinst hr
  obtain ⟨i, msg, sender, chan, hi, -, -, hsender, -, -, rfl⟩ := forwardIncoming_eq_ok.1 hr
  cases hi
  have hfrom : w.fromPeer = p := by
    unfold wrapOutgoing at hw
    split at hw
    · cases hw
    · split at hw <;> cases hw <;> rfl
  rw [hinst.1, hfrom, hp] at hsender
  cases hsender
  exact h

/-- An instance of the assignment that signs. -/
theorem exists_signs (share : X.KeyShare) (aux : X.AuxInfo) (A : HashMap X.PeerId PartyIndex)
    (p : X.PeerId) : ∃ inst : Instance X, inst.Signs A :=
  ⟨⟨{ MPCOrchestrator.new p [] A with signingIncomingTx := some 0 },
    [.signing (.new 0 0 share aux) [] [] 0 .running]⟩, rfl, 0, rfl, rfl⟩

end Program

/-! ### Which lists of signers are right -/

/-- What `initiate_signing` checks of the signers it sends to the network. -/
theorem initiateSigning_accepts {n : Node X} {inst : Instance X}
    (hinst : n.mpcOrchestrator = some inst) {message : String} {signers : List PartyIndex}
    {timestamp : SystemTime} (h : (n.initiateSigning message signers timestamp).broadcast ≠ none) :
    signers ≠ [] ∧ ∀ i ∈ signers, i.toNat < inst.orch.participants.length % 65536 := by
  unfold Node.initiateSigning at h
  simp only [hinst] at h
  by_cases hnil : signers = []
  · simp [hnil] at h
  · rw [if_neg hnil] at h
    refine ⟨hnil, fun i hi => ?_⟩
    cases hfind : signers.find? (· ≥ UInt16.ofNat inst.orch.participants.length) with
    | some signer => simp [hfind] at h
    | none =>
      have hlt := List.find?_eq_none.1 hfind i hi
      simp only [ge_iff_le, decide_eq_true_eq, UInt16.not_le] at hlt
      simpa [UInt16.lt_iff_toNat_lt] using hlt

section Exact

variable {A : HashMap X.PeerId PartyIndex} {n : ℕ} {signers : List PartyIndex}

theorem signingConsistent_of_identityOrder (hX : X.Lawful) (h : IdentityOrder signers) :
    SigningConsistent A signers := by
  intro p k hp hk
  have hpos := position_of_identityOrder h hk
  refine ⟨localIndexRight_of hp hpos, ?_, senderRight_of hp hpos⟩
  intro j m w hj hw q inst _ hinst
  rw [forwarded_iff hX hp hw hinst, getElem?_of_identityOrder h hj]

/-- With one participant there is nobody to confuse. -/
theorem signingConsistent_of_single (hX : X.Lawful) (hcover : Covers A 1) (hne : signers ≠ [])
    (hlt : ∀ i ∈ signers, i.toNat < 1) : SigningConsistent A signers := by
  have hzero : ∀ i : PartyIndex, i.toNat < 1 → i = 0 := fun i hi =>
    UInt16.toNat_inj.1 (Nat.lt_one_iff.1 hi)
  intro p k hp hk
  obtain rfl : k = 0 := hzero k (hlt k hk)
  have hpos : signers[(0 : PartyIndex).toNat]? = some 0 := by
    obtain ⟨i, rest, rfl⟩ := List.exists_cons_of_ne_nil hne
    rw [hzero i (hlt i (by simp))]
    rfl
  refine ⟨localIndexRight_of hp hpos, ?_, senderRight_of hp hpos⟩
  intro j m w hj hw q inst hq hinst
  -- nobody but `p` has an index
  have hnone : ∀ i, A.lookup q ≠ some i := fun i hi => hq <| by
    rw [hzero i (hcover.lt q i hi)] at hi
    exact hcover.inj q p 0 hi hp
  rw [forwarded_iff hX hp hw hinst, List.getElem?_eq_getElem hj]
  exact iff_of_false (hnone _) (hnone _)

/-- In a consistent run of several participants the signer at a position is that position. -/
theorem position_of_consistent (hX : X.Lawful) (hcover : Covers A n) (hn : 2 ≤ n)
    (hlt : ∀ i ∈ signers, i.toNat < n) (share : X.KeyShare) (aux : X.AuxInfo) {m : X.Msg .signing}
    (hm : (X.serialize .signing m).isSome) (h : SigningConsistent A signers) {j : PartyIndex}
    (hj : j.toNat < signers.length) : signers[j.toNat]? = some j := by
  obtain ⟨b, hb⟩ := Option.isSome_iff_exists.1 hm
  have hwrap : ∀ (p : X.PeerId) (i : PartyIndex),
      wrapOutgoing p .signing ⟨.oneParty i, m⟩ = some ⟨p, some i, "p2p", b⟩ := by
    intro p i
    simp [wrapOutgoing, hb]
  -- a signer `p` reaches the holder `q` of `i` just if the signer at the position `i` is `q`
  have hreach : ∀ (p q : X.PeerId) (k i : PartyIndex), A.lookup p = some k → k ∈ signers →
      i.toNat < signers.length → q ≠ p →
      (A.lookup q = some i ↔ A.lookup q = signers[i.toNat]?) := by
    intro p q k i hp hk hi hq
    obtain ⟨inst, hinst⟩ := exists_signs share aux A p
    rw [← (h p k hp hk).2.1 i m _ hi (hwrap p i) q inst hq hinst,
      forwarded_iff hX hp (hwrap p i) hinst]
  obtain ⟨t, ht⟩ : ∃ t, signers[j.toNat]? = some t := ⟨_, List.getElem?_eq_getElem hj⟩
  have htmem := List.mem_of_getElem? ht
  obtain ⟨q, hq⟩ := hcover.surj t (hlt t htmem)
  rw [ht]
  by_cases hother : ∃ k ∈ signers, k ≠ t
  · obtain ⟨k, hk, hkt⟩ := hother
    obtain ⟨p, hp⟩ := hcover.surj k (hlt k hk)
    have hqp : q ≠ p := by
      rintro rfl
      exact hkt (Option.some.inj (hp.symm.trans hq))
    rw [← (hreach p q k j hp hk hj hqp).2 (hq.trans ht.symm), hq]
  · -- all entries are `t`; a position below 2 other than `t` would be misdelivered
    by_contra hne
    have hall : ∀ k ∈ signers, k = t := fun k hk => by
      by_contra hkt
      exact hother ⟨k, hk, hkt⟩
    have htpos := position_of_localIndexRight share aux hq htmem (h q t hq htmem).1
    obtain ⟨htlen, -⟩ := List.getElem?_eq_some_iff.1 htpos
    have hjt : j.toNat ≠ t.toNat := fun he => hne (by rw [UInt16.toNat_inj.1 he])
    obtain ⟨i, hi2, hit⟩ : ∃ i : PartyIndex, i.toNat < 2 ∧ i ≠ t := by
      by_cases h0 : (0 : PartyIndex) = t
      · exact ⟨1, by decide, by rw [← h0]; decide⟩
      · exact ⟨0, by decide, h0⟩
    have hi : i.toNat < signers.length := by omega
    obtain ⟨q', hq'⟩ := hcover.surj i (by omega)
    have hq'q : q' ≠ q := by
      rintro rfl
      exact hit (Option.some.inj (hq'.symm.trans hq))
    have hmis := (hreach q q' t i hq htmem hi hq'q).1 hq'
    rw [List.getElem?_eq_getElem hi, hall _ (List.getElem_mem hi), hq'] at hmis
    exact hit (Option.some.inj hmis)

end Exact

/-- For the signers a node initiates a signing with, under an assignment that gives the indices
below the number of participants to one peer each: the signing run keeps the contract of cggmp24
exactly if the signers are `0, 1, …` in this order, or there is only one participant. -/
theorem signing_consistent_iff (hX : X.Lawful) {n : Node X} {inst : Instance X}
    (hinst : n.mpcOrchestrator = some inst) {message : String} {signers : List PartyIndex}
    {timestamp : SystemTime} (hacc : (n.initiateSigning message signers timestamp).broadcast ≠ none)
    (hcover : Covers inst.orch.partyAssignments inst.orch.participants.length)
    (share : X.KeyShare) (aux : X.AuxInfo) {m : X.Msg .signing}
    (hm : (X.serialize .signing m).isSome) :
    SigningConsistent inst.orch.partyAssignments signers ↔
      IdentityOrder signers ∨ inst.orch.participants.length = 1 := by
  obtain ⟨hne, hlt⟩ := initiateSigning_accepts hinst hacc
  have hlt' : ∀ i ∈ signers, i.toNat < inst.orch.participants.length := fun i hi =>
    (hlt i hi).trans_le (Nat.mod_le _ _)
  constructor
  · intro h
    by_cases hone : inst.orch.participants.length = 1
    · exact .inr hone
    · left
      have htwo : 2 ≤ inst.orch.participants.length := by
        obtain ⟨i, rest, rfl⟩ := List.exists_cons_of_ne_nil hne
        have := hlt' i (by simp)
        omega
      have hpos : ∀ j (hj : j < signers.length) (_ : j < 65536), signers[j].toNat = j := by
        intro j hj hj16
        have hto : (UInt16.ofNat j).toNat = j := by simpa using hj16
        have hx := position_of_consistent hX hcover htwo hlt' share aux hm h
          (j := UInt16.ofNat j) (by rw [hto]; exact hj)
        rw [hto, List.getElem?_eq_getElem hj, Option.some.injEq] at hx
        rw [hx, hto]
      -- the list is shorter than the range of the indices, since its last one is below its modulus
      have hshort : signers.length ≤ 65535 := by
        by_contra hlong
        have hx := hpos 65535 (by omega) (by omega)
        have := hlt signers[65535] (List.getElem_mem _)
        omega
      exact fun j hj => hpos j hj (by omega)
  · rintro (hid | hone)
    · exact signingConsistent_of_identityOrder hX hid
    · rw [hone] at hcover hlt'
      exact signingConsistent_of_single hX hcover hne hlt'

/-! ### Three parties, two of whom sign -/

namespace SignerLists

def assignment : HashMap String PartyIndex := .ofEntries [("a", 0), ("b", 1), ("c", 2)]

/-- The instance of `a` when keygen has completed. -/
def completed : Instance .plain where
  orch := { (MPCOrchestrator.new "a" ["a", "b", "c"] assignment : MPCOrchestrator .plain) with
    state := .keygenCompleted "02"
    auxInfo := some (5 : ℕ)
    keyShare := some [2] }
  tasks := []

/-- The node `a` when keygen has completed. -/
def node : Node .plain := { Node.new "a" with mpcOrchestrator := some completed }

theorem entries_of_lookup {p : String} {i : PartyIndex} (h : assignment.lookup p = some i) :
    (p = "c" ∧ i = 2) ∨ (p = "b" ∧ i = 1) ∨ (p = "a" ∧ i = 0) := by
  have hmem := AList.mem_lookup_iff.1 h
  have hentries : assignment.entries = [⟨"c", 2⟩, ⟨"b", 1⟩, ⟨"a", 0⟩] := by decide
  simpa [hentries] using hmem

theorem assignment_covers : Covers (X := .plain) assignment 3 where
  lt p i h := by
    rcases entries_of_lookup h with ⟨-, rfl⟩ | ⟨-, rfl⟩ | ⟨-, rfl⟩ <;> decide
  surj i h := by
    have hi : i = 0 ∨ i = 1 ∨ i = 2 := by
      simp only [← UInt16.toNat_inj]
      change i.toNat = 0 ∨ i.toNat = 1 ∨ i.toNat = 2
      omega
    rcases hi with rfl | rfl | rfl
    · exact ⟨"a", by decide⟩
    · exact ⟨"b", by decide⟩
    · exact ⟨"c", by decide⟩
  inj p q i hp hq := by
    rcases entries_of_lookup hp with ⟨rfl, rfl⟩ | ⟨rfl, rfl⟩ | ⟨rfl, rfl⟩ <;>
      rcases entries_of_lookup hq with ⟨rfl, hi⟩ | ⟨rfl, hi⟩ | ⟨rfl, hi⟩ <;>
        first | rfl | exact absurd hi (by decide)

end SignerLists

/-- The first two parties sign consistently. -/
theorem first_two_consistent : SigningConsistent (X := .plain) SignerLists.assignment [0, 1] := by
  have hinst : SignerLists.node.mpcOrchestrator = some SignerLists.completed := rfl
  have hacc : (SignerLists.node.initiateSigning "m" [0, 1] ⟨0⟩).broadcast ≠ none := by
    rintro ⟨⟩
  refine (signing_consistent_iff Platform.plain_lawful hinst hacc SignerLists.assignment_covers
    ([] : List UInt8) (0 : ℕ) (m := ([] : List UInt8)) rfl).2 (.inl ?_)
  intro j hj
  match j, hj with
  | 0, _ => rfl
  | 1, _ => rfl

/-- The first and the third are accepted as signers and do not. -/
theorem first_and_third_inconsistent :
    (SignerLists.node.initiateSigning "m" [0, 2] ⟨0⟩).broadcast ≠ none ∧
      ¬ SigningConsistent (X := .plain) SignerLists.assignment [0, 2] := by
  constructor
  · rintro ⟨⟩
  · intro h
    have hc : SignerLists.assignment.lookup "c" = some 2 := by decide
    have hx := position_of_localIndexRight (X := .plain) ([] : List UInt8) (0 : ℕ) hc (by decide)
      (h "c" 2 hc (by decide)).1
    exact absurd hx (by decide)

end P2pMpc
