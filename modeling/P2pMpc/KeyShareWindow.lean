import P2pMpc.ErrorAtomicity

/-!
# The key share of a completed keygen

A keygen task announces its success before it stores the share: it writes `KeygenCompleted`,
releases the state lock, and only then takes the lock of the key share (an aux task stores first
and announces afterwards). Between the two writes the state promises a key share that is not there.
`key_share_usable_iff` says that this window is the only way the promise fails, in every
interleaving.
-/

namespace P2pMpc

open StateMachine MPCOrchestrator

variable {X : Platform}

/-- A keygen task that has announced its success and not yet stored its share. -/
inductive Task.Unstored : Task X → Prop
  | mk (p : KeygenParty X) (n t ts share) : Unstored (.keygen p n t ts (.published share))

namespace Config

/-- Some keygen task stands between its two writes. -/
def ShareWindow (c : Config X) : Prop := ∃ t ∈ c.inst.tasks, t.Unstored

/-- What `KeygenCompleted` promises: the share of the announced public key, and the aux info. -/
def ShareUsable (c : Config X) : Prop :=
  ∀ pk, c.inst.orch.state = .keygenCompleted pk →
    (∃ share, c.inst.orch.keyShare = some share ∧ publicKeyHex share = pk) ∧
      ∃ a, c.inst.orch.auxInfo = some a

/-- A signer's handling of `InitiateSigning` fails for want of the key share, taken in one piece
from `c`. -/
def SignerFails (c : Config X) (chan : ChannelId) (sender : X.PeerId)
    (executionId message : List UInt8) (signers : List PartyIndex)
    (timestamp : SystemTime) : Prop :=
  (c.inst.orch.handleCoordinationMessage chan sender
    (.initiateSigning executionId message signers timestamp)).result = .error .keyShareMissing

end Config

theorem ShareWritten.keyShare_none_iff {share : X.KeyShare} {pc : KeygenPc X}
    {ks : Option X.KeyShare} (hw : ShareWritten share pc ks) (p : KeygenParty X)
    (n t : UInt16) (ts : UInt64) : ks = none ↔ (Task.keygen p n t ts pc).Unstored := by
  cases hw with
  | before => exact iff_of_true rfl ⟨p, n, t, ts, share⟩
  | after => exact iff_of_false (by simp) (by rintro ⟨⟩)

namespace Config.Shaped

variable {c : Config X}

/-- Where keygen has completed or a signing call waits, the share is missing exactly in the
window. -/
theorem keyShare_none_iff (h : c.Shaped)
    (hst : (∃ pk, c.inst.orch.state = .keygenCompleted pk) ∨
      ∃ i a m s ts, c.pending = some (.signingAux i a m s ts)) :
    c.inst.orch.keyShare = none ↔ c.ShareWindow := by
  have window_iff : ∀ p m ts₁ (kp : KeygenParty X) n t ts₂ pc,
      c.inst.tasks = [.aux p m ts₁ .done, .keygen kp n t ts₂ pc] →
        (c.ShareWindow ↔ (Task.keygen kp n t ts₂ pc).Unstored) := by
    intro p m ts₁ kp n t ts₂ pc ht
    have haux : ¬ (Task.aux p m ts₁ .done : Task X).Unstored := by rintro ⟨⟩
    simp [Config.ShareWindow, ht, haux]
  simp only [Config.Shaped] at h
  rcases hst with ⟨pk, hpk⟩ | ⟨i, a, m, s, ts, hp⟩
  · rw [hpk] at h
    obtain ⟨p, m, ts₁, kp, n, t, ts₂, share, pc, hw, -, ht, -, -⟩ := h.of_keygenCompleted
    rw [window_iff _ _ _ _ _ _ _ _ ht]
    exact hw.keyShare_none_iff kp n t ts₂
  · rw [hp] at h
    generalize hs : c.inst.orch.state = st, ht : c.inst.tasks = tasks,
      c.inst.orch.auxInfo = aux, c.inst.orch.keyShare = ks at h
    cases h with
    | signingEntered q e m s p n₁ ts₁ kp n t ts₂ share pc _ _ hw =>
      rw [window_iff _ _ _ _ _ _ _ _ ht]
      exact hw.keyShare_none_iff kp n t ts₂

theorem shareUsable_iff (h : c.Shaped) :
    c.ShareUsable ↔ ¬ ((∃ pk, c.inst.orch.state = .keygenCompleted pk) ∧ c.ShareWindow) := by
  constructor
  · rintro hu ⟨⟨pk, hpk⟩, hw⟩
    obtain ⟨⟨share, hshare, -⟩, -⟩ := hu pk hpk
    have hnone := (h.keyShare_none_iff (.inl ⟨pk, hpk⟩)).2 hw
    rw [hnone] at hshare
    cases hshare
  · intro hw pk hpk
    have hsome := mt (h.keyShare_none_iff (.inl ⟨pk, hpk⟩)).1 fun hx => hw ⟨⟨pk, hpk⟩, hx⟩
    simp only [Config.Shaped, hpk] at h
    obtain ⟨_, _, _, kp, _, _, _, share, _, hwr, hpk', -, -, ha⟩ := h.of_keygenCompleted
    refine ⟨?_, kp.auxInfo, ha⟩
    generalize hks : c.inst.orch.keyShare = ks at hwr hsome
    cases hwr with
    | before => exact absurd rfl hsome
    | after => exact ⟨share, rfl, hpk'.symm⟩

/-- In `KeygenCompleted` a signer's call fails for want of the key share exactly in the window. -/
theorem signerFails_iff (h : c.Shaped) {pk : String} (hpk : c.inst.orch.state = .keygenCompleted pk)
    {chan : ChannelId} {sender : X.PeerId} {eid msg : List UInt8} {signers : List PartyIndex}
    {timestamp : SystemTime} {i : PartyIndex} {ts : UInt64}
    (hc : c.inst.orch.SigningChecks timestamp i ts) (hi : i ∈ signers) :
    c.SignerFails chan sender eid msg signers timestamp ↔ c.ShareWindow := by
  rw [← h.keyShare_none_iff (.inl ⟨pk, hpk⟩)]
  simp only [Config.Shaped, hpk] at h
  obtain ⟨_, _, _, _, _, _, _, _, _, -, -, -, -, ha⟩ := h.of_keygenCompleted
  simp only [Config.SignerFails, handleCoordinationMessage]
  rcases handleInitiateSigning_cases c.inst.orch chan sender eid msg signers timestamp with
    ⟨_, hn, -⟩ | ⟨j, _, hj, ⟨hnot, -⟩ | ⟨-, hcells, he⟩ | ⟨-, _, share, -, hk, he⟩⟩
  · exact absurd hc (hn i ts)
  · have hij : i = j := Option.some.inj (hc.2.2.symm.trans hj.2.2)
    exact absurd (hij ▸ hi) hnot
  · simp [he, ha, hcells.resolve_left (by simp [ha])]
  · simp [he, hk]

/-- A signer's call that has found the aux info fails at the key share exactly in the window. -/
theorem startSigning_fails_iff (h : c.Shaped) {i : PartyIndex} {a : X.AuxInfo}
    {msg : List UInt8} {signers : List PartyIndex} {ts : UInt64}
    (hp : c.pending = some (.signingAux i a msg signers ts)) (chan : ChannelId) :
    (c.inst.orch.startSigning chan i a msg signers ts).result = .error .keyShareMissing ↔
      c.ShareWindow := by
  rw [← h.keyShare_none_iff (.inr ⟨i, a, msg, signers, ts, hp⟩)]
  cases hk : c.inst.orch.keyShare with
  | none => simp [startSigning, hk]
  | some share => simp [startSigning, hk]

end Config.Shaped

/-- In every reachable configuration: the key share of a completed keygen is usable, and a signer's
`InitiateSigning` finds it, unless the keygen task stands between its two writes. -/
theorem key_share_usable_iff {c : Config X} (h : (orchestratorMachine X).Reachable c) :
    (c.ShareUsable ↔ ¬ ((∃ pk, c.inst.orch.state = .keygenCompleted pk) ∧ c.ShareWindow)) ∧
    (∀ pk, c.inst.orch.state = .keygenCompleted pk →
      ∀ chan sender eid msg signers timestamp i ts,
        c.inst.orch.SigningChecks timestamp i ts → i ∈ signers →
          (c.SignerFails chan sender eid msg signers timestamp ↔ c.ShareWindow)) ∧
    (∀ i a msg signers ts, c.pending = some (.signingAux i a msg signers ts) → ∀ chan,
      ((c.inst.orch.startSigning chan i a msg signers ts).result = .error .keyShareMissing ↔
        c.ShareWindow)) := by
  have hs := reachable_shaped h
  refine ⟨hs.shareUsable_iff, ?_, ?_⟩
  · intro pk hpk chan sender eid msg signers timestamp i ts hc hi
    exact hs.signerFails_iff hpk hc hi
  · intro i a msg signers ts hp chan
    exact hs.startSigning_fails_iff hp chan

/-! ### A run into the window -/

namespace ShareWindowRun

def assignments : HashMap String PartyIndex := .ofEntries [("a", 0), ("b", 1), ("c", 2)]

/-- The orchestrator of the first of three parties. -/
def start : Config .plain := ⟨⟨.new "a" ["a", "b", "c"] assignments, []⟩, none⟩

/-- Aux generation and keygen up to the announcement of the public key. -/
def labels : List (Label .plain) :=
  [.call 0 "a" (.initiateAux [] ["a", "b", "c"] assignments ⟨0⟩),
    .finish 0 (.aux (.ok (5 : ℕ))), .advance 0, .advance 0,
    .call 1 "a" (.initiateKeygen [] 2 3 ⟨0⟩), .resume 1, .finish 1 (.keygen (.ok [2])), .advance 1]

/-- The configuration the run ends in. -/
def announced : Config .plain where
  inst := {
    orch := { (MPCOrchestrator.new "a" ["a", "b", "c"] assignments : MPCOrchestrator .plain) with
      state := .keygenCompleted "02"
      auxIncomingTx := some 0
      keygenIncomingTx := some 1
      auxInfo := some (5 : ℕ) }
    tasks := [.aux (.new 0 0) 3 0 .done, .keygen (.new 0 1 (5 : ℕ)) 3 2 0 (.published [2])] }
  pending := none

theorem announced_reachable : (orchestratorMachine .plain).Reachable announced :=
  ⟨start, labels, ⟨_, _, _, rfl⟩, rfl⟩

/-- The configuration after the second write of the keygen task. -/
def stored : Config .plain where
  inst := {
    orch := { announced.inst.orch with keyShare := some [2] }
    tasks := [.aux (.new 0 0) 3 0 .done, .keygen (.new 0 1 (5 : ℕ)) 3 2 0 .done] }
  pending := none

theorem stored_reachable : (orchestratorMachine .plain).Reachable stored :=
  announced_reachable.step (l := .advance 1) rfl

end ShareWindowRun

/-- In the window the share is missing, and a signer's call fails. -/
theorem announced_share_missing :
    (orchestratorMachine .plain).Reachable ShareWindowRun.announced ∧
      ¬ ShareWindowRun.announced.ShareUsable ∧
      ShareWindowRun.announced.SignerFails 2 "a" [] [9] [0, 1] ⟨0⟩ := by
  refine ⟨ShareWindowRun.announced_reachable, fun h => ?_, rfl⟩
  obtain ⟨⟨share, hshare, -⟩, -⟩ := h "02" rfl
  cases hshare

/-- After the window the share is usable. -/
theorem stored_share_usable : ShareWindowRun.stored.ShareUsable := by
  refine (key_share_usable_iff ShareWindowRun.stored_reachable).1.2 ?_
  rintro ⟨-, t, ht, hu⟩
  cases hu
  simp [ShareWindowRun.stored] at ht

end P2pMpc
