import Mathlib.Data.List.FinRange
import P2pMpc.Lib.Lists
import P2pMpc.Types

/-!
# The coordinator of the tests

`NetworkCoordinator` and `KeygenNetworkCoordinator` of `test/mock.rs`, which have the same code over
different message types: the parties of a test register the senders of their channels, and the sink
of a party puts every message straight into the channels it is for. What has been put into the
channels is the log `sent`; their receivers are alive.
-/

namespace P2pMpc

open Lists

variable {α : Type} {n : ℕ}

/-- `NetworkCoordinator` and `KeygenNetworkCoordinator`, with the log of what they have sent. -/
structure NetworkCoordinator (α : Type) where
  channels : HashMap PartyIndex ChannelId
  sent : List (ChannelId × Incoming α)

namespace NetworkCoordinator

/-- `NetworkCoordinator::new`. -/
def new : NetworkCoordinator α := ⟨∅, []⟩

/-- `register_party`. -/
def registerParty (c : NetworkCoordinator α) (partyId : PartyIndex) (sender : ChannelId) :
    NetworkCoordinator α :=
  { c with channels := c.channels.insert partyId sender }

/-- `broadcast`. -/
def broadcast (c : NetworkCoordinator α) (fromParty : PartyIndex) (message : Incoming α) :
    NetworkCoordinator α :=
  { c with
    sent := c.sent ++ (c.channels.entries.filter fun e => e.1 ≠ fromParty).map fun e =>
      (e.2, message) }

/-- `send_to_party`. -/
def sendToParty (c : NetworkCoordinator α) (toParty : PartyIndex) (message : Incoming α) :
    Except String (NetworkCoordinator α) :=
  match c.channels.lookup toParty with
  | some sender => .ok { c with sent := c.sent ++ [(sender, message)] }
  | none => .error ("Party " ++ toString toParty.toNat ++ " not registered with coordinator")

/-- The sink of `create_mpc_channels`, which panics where `send_to_party` fails. -/
def outgoingSink (c : NetworkCoordinator α) (partyId : PartyIndex) (out : Outgoing α) :
    Option (NetworkCoordinator α) :=
  match out.recipient with
  | .allParties => some (c.broadcast partyId ⟨0, partyId, .broadcast, out.msg⟩)
  | .oneParty id => (c.sendToParty id ⟨0, partyId, .p2p, out.msg⟩).toOption

/-- The messages of a test, put into the sinks of their parties one after the other. -/
def run : NetworkCoordinator α → List (PartyIndex × Outgoing α) → Option (NetworkCoordinator α)
  | c, [] => some c
  | c, (partyId, out) :: sends => (c.outgoingSink partyId out).bind fun c => c.run sends

/-- What has been put into a channel. -/
def enqueued (c : NetworkCoordinator α) (chan : ChannelId) : List (Incoming α) :=
  c.sent.filterMap fun e => if e.1 = chan then some e.2 else none

/-- The coordinator of `n` parties, the `k`-th of which has registered the channel `k`. -/
def registered (α : Type) (idx : Fin n → PartyIndex) : NetworkCoordinator α :=
  (List.finRange n).foldl (fun c k => c.registerParty (idx k) k) new

/-! ### What a sink puts into a channel -/

/-- The message of the party `i` is one for the party `k`. -/
def Reaches (i k : PartyIndex) : MessageDestination → Prop
  | .allParties => k ≠ i
  | .oneParty j => k = j

instance (i k : PartyIndex) : (d : MessageDestination) → Decidable (Reaches i k d)
  | .allParties => inferInstanceAs (Decidable (k ≠ i))
  | .oneParty j => inferInstanceAs (Decidable (k = j))

/-- The message is for all parties, or for one of those registered. -/
def Registered (idx : Fin n → PartyIndex) : MessageDestination → Prop
  | .allParties => True
  | .oneParty j => ∃ k, idx k = j

/-- What the party with the index `i` sends to one with the index `k`. -/
def delivery (i k : PartyIndex) (out : Outgoing α) : Option (Incoming α) :=
  if Reaches i k out.recipient then
    some ⟨0, i, match out.recipient with | .allParties => .broadcast | .oneParty _ => .p2p, out.msg⟩
  else none

variable {idx : Fin n → PartyIndex} {c : NetworkCoordinator α}

theorem registered_channels (idx : Fin n → PartyIndex) : (registered α idx).channels =
    .ofEntries ((List.finRange n).map fun k => (idx k, (k : ChannelId))) := by
  suffices hfold : ∀ (ks : List (Fin n)) (c : NetworkCoordinator α),
      (ks.foldl (fun c k => c.registerParty (idx k) k) c).channels =
        (ks.map fun k => (idx k, (k : ChannelId))).foldl (fun m e => m.insert e.1 e.2) c.channels
    from hfold _ _
  intro ks
  induction ks with
  | nil => exact fun _ => rfl
  | cons k ks ih => exact fun c => ih (c.registerParty (idx k) k)

theorem registered_sent (idx : Fin n → PartyIndex) : (registered α idx).sent = [] := by
  suffices hfold : ∀ (ks : List (Fin n)) (c : NetworkCoordinator α),
      (ks.foldl (fun c k => c.registerParty (idx k) k) c).sent = c.sent from hfold _ _
  intro ks
  induction ks with
  | nil => exact fun _ => rfl
  | cons k ks ih => exact fun c => ih (c.registerParty (idx k) k)

/-- The registered senders, for parties with different indices. -/
theorem registered_entries (hidx : Function.Injective idx) :
    (registered α idx).channels.entries = ((List.finRange n).map
      fun k => (⟨idx k, k⟩ : Sigma fun _ : PartyIndex => ChannelId)).reverse := by
  rw [registered_channels, HashMap.entries_ofEntries, List.map_map]
  · rfl
  · rw [List.map_map]
    exact (List.nodup_finRange n).map hidx

theorem registered_lookup (hidx : Function.Injective idx) (k : Fin n) :
    (registered α idx).channels.lookup (idx k) = some (k : ChannelId) := by
  rw [← Option.mem_def, AList.mem_lookup_iff, registered_entries hidx, List.mem_reverse]
  exact List.mem_map.2 ⟨k, List.mem_finRange k, rfl⟩

/-- A sink leaves the registered senders alone and puts its message into the channels of those it
is for. -/
theorem outgoingSink_spec (hidx : Function.Injective idx)
    (hc : c.channels = (registered α idx).channels) (i : Fin n) {out : Outgoing α}
    (hout : Registered idx out.recipient) : ∃ c', c.outgoingSink (idx i) out = some c' ∧
      c'.channels = c.channels ∧ ∀ k : Fin n, c'.enqueued k =
        c.enqueued k ++ (delivery (idx i) (idx k) out).toList := by
  obtain ⟨recipient, msg⟩ := out
  cases recipient with
  | allParties =>
    refine ⟨_, rfl, rfl, fun k => ?_⟩
    have hnew : ((c.channels.entries.filter fun e => e.1 ≠ idx i).map fun e =>
        (e.2, (⟨0, idx i, .broadcast, msg⟩ : Incoming α))).filterMap
          (fun e => if e.1 = (k : ChannelId) then some e.2 else none) =
        (delivery (idx i) (idx k) ⟨.allParties, msg⟩).toList := by
      rw [hc, registered_entries hidx, List.filterMap_map, List.filterMap_filter,
        List.filterMap_reverse, List.filterMap_map]
      -- of all registered channels only that of `k` counts
      have hone : ((fun e : Sigma fun _ : PartyIndex => ChannelId =>
          if decide (e.1 ≠ idx i) = true then (if e.2 = (k : ChannelId) then
            some (⟨0, idx i, .broadcast, msg⟩ : Incoming α) else none) else none) ∘
          fun d : Fin n => ⟨idx d, d⟩) =
          fun d => if d = k then delivery (idx i) (idx k) ⟨.allParties, msg⟩ else none := by
        funext d
        by_cases hdk : d = k
        · subst hdk
          by_cases hdi : idx d = idx i <;> simp [delivery, Reaches, hdi]
        · have hval : (d : ChannelId) ≠ k := fun he => hdk (Fin.ext he)
          simp [hdk, hval]
      refine (congrArg (fun f => ((List.finRange n).filterMap f).reverse) hone).trans ?_
      rw [filterMap_ite_eq (List.nodup_finRange n) (List.mem_finRange k)]
      cases delivery (idx i) (idx k) ⟨.allParties, msg⟩ <;> rfl
    show ((_ ++ _ : List _).filterMap _ : List _) = _
    rw [List.filterMap_append]
    exact congrArg _ hnew
  | oneParty j =>
    obtain ⟨d, rfl⟩ := hout
    have hlookup : c.channels.lookup (idx d) = some (d : ChannelId) := by
      rw [hc]
      exact registered_lookup hidx d
    refine ⟨{ c with sent := c.sent ++ [((d : ChannelId), ⟨0, idx i, .p2p, msg⟩)] }, ?_, rfl, ?_⟩
    · simp [outgoingSink, sendToParty, hlookup, Except.toOption]
    · intro k
      show ((_ ++ _ : List _).filterMap _ : List _) = _
      rw [List.filterMap_append]
      congr 1
      by_cases hdk : d = k
      · subst hdk
        simp [delivery, Reaches]
      · have hne : idx k ≠ idx d := fun he => hdk (hidx he).symm
        have hval : (d : ChannelId) ≠ k := fun he => hdk (Fin.ext he)
        simp [delivery, Reaches, hne, hval]

/-- The sinks put into the channel of each party, in order, the messages that are for it. -/
theorem run_spec (hidx : Function.Injective idx) (hc : c.channels = (registered α idx).channels)
    (sends : List (Fin n × Outgoing α)) (hsends : ∀ e ∈ sends, Registered idx e.2.recipient) :
    ∃ c', c.run (sends.map fun e => (idx e.1, e.2)) = some c' ∧ ∀ k : Fin n, c'.enqueued k =
      c.enqueued k ++ sends.filterMap fun e => delivery (idx e.1) (idx k) e.2 := by
  induction sends generalizing c with
  | nil => exact ⟨c, rfl, fun k => (List.append_nil _).symm⟩
  | cons e sends ih =>
    obtain ⟨i, out⟩ := e
    obtain ⟨c₁, h₁, hchannels, henqueued⟩ :=
      outgoingSink_spec hidx hc i (hsends (i, out) List.mem_cons_self)
    obtain ⟨c', h', hrest⟩ :=
      ih (hchannels.trans hc) fun e he => hsends e (List.mem_cons_of_mem _ he)
    refine ⟨c', ?_, fun k => ?_⟩
    · show (c.outgoingSink (idx i) out).bind _ = some c'
      rw [h₁]
      exact h'
    · rw [hrest k, henqueued k, List.append_assoc, filterMap_cons_eq]

end NetworkCoordinator

end P2pMpc
