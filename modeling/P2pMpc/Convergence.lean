import P2pMpc.CurrentSession

/-!
# Two Requests at several participants

Two Requests may reach the participants in different orders, and a Request carries nothing by which
a participant could tell which of the two is the later one. Each participant adopts what it handles:
it ends in the session, and with the party assignments, of the Request it has handled last. So the
participants end in the same session exactly if they have all handled the same Request last.

Every participant meets the entries of a Request's assignments in an order of its own.
-/

namespace P2pMpc

open StateMachine

variable {X : Platform}

/-- The content of an assignment Request. -/
structure Request where
  coordinatorId : String
  assignments : HashMap String ℕ
  sessionId : String

namespace Request

/-- The party assignments of an orchestrator for the Request. -/
def partyAssignments (r : Request) : HashMap X.PeerId PartyIndex :=
  .ofEntries (parsedAssignments r.assignments)

/-- The Request assigns an index to the node, under another coordinator. -/
def Addresses (r : Request) (p : X.PeerId) : Prop :=
  X.peerToString p ∈ r.assignments ∧ r.coordinatorId ≠ X.peerToString p

instance (r : Request) (p : X.PeerId) : Decidable (r.Addresses p) :=
  inferInstanceAs (Decidable (_ ∧ _))

/-- The step handles the Request, received from another node, and its acceptance is published. -/
def Arrives (r : Request) (p : X.PeerId) : NodeLabel X → Prop
  | .receive source published _ (.assignment (.request coordinatorId assignments sessionId)) =>
      source ≠ some p ∧ published = true ∧ coordinatorId = r.coordinatorId ∧
        assignments.entries.Perm r.assignments.entries ∧ sessionId = r.sessionId
  | _ => False

end Request

/-- The session of the Request is the current one, and the orchestrator has its party
assignments. -/
def Node.In (n : Node X) (r : Request) : Prop :=
  n.currentSessionId = some r.sessionId ∧ ∃ inst, n.mpcOrchestrator = some inst ∧
    inst.orch.partyAssignments.entries.Perm (r.partyAssignments (X := X)).entries

/-- In the run of a participant it handles both Requests, either of them any number of times, and
no other step assigns anything. -/
structure Handles (r₁ r₂ : Request) (n : Node X) (ls : List (NodeLabel X)) : Prop where
  addresses₁ : r₁.Addresses n.id
  addresses₂ : r₂.Addresses n.id
  arrives₁ : ∃ l ∈ ls, r₁.Arrives n.id l
  arrives₂ : ∃ l ∈ ls, r₂.Arrives n.id l
  only : (nodeMachine X).Meets (fun n l => r₁.Arrives n.id l ∨ r₂.Arrives n.id l ∨
    l.assigns n.id = none ∧ n.completes l = none) n ls

variable {n n' : Node X} {l : NodeLabel X} {r r₁ r₂ : Request}

/-- No two entries of an assignment parse to the same peer. -/
theorem parsedAssignments_nodup (hX : X.Lawful) (A : HashMap String ℕ) :
    ((parsedAssignments A : List (X.PeerId × PartyIndex)).map Prod.fst).Nodup := by
  have hkeys : (parsedAssignments A : List (X.PeerId × PartyIndex)).map Prod.fst =
      A.keys.filterMap X.parsePeer := by
    rw [parsedAssignments, List.map_filterMap]
    show _ = (A.entries.map Sigma.fst).filterMap X.parsePeer
    rw [List.filterMap_map]
    congr 1
    funext e
    show ((X.parsePeer e.1).map _).map Prod.fst = X.parsePeer e.1
    rw [Option.map_map]
    exact Option.map_id'
  rw [hkeys]
  exact A.keys_nodup.filterMap fun s t p hs ht => hX.parse_inj s t p hs ht

/-- A Request that arrives is adopted. -/
theorem Request.Arrives.adopted (hX : X.Lawful) (ha : r.Arrives n.id l) (hr : r.Addresses n.id)
    (h : n.step l = some n') : n'.In r := by
  unfold Arrives at ha
  split at ha
  · next source published now c A sid =>
    obtain ⟨hs, rfl, rfl, hA, rfl⟩ := ha
    obtain rfl := Option.some.inj h
    have hmem : X.peerToString n.id ∈ A := (AList.mem_of_perm hA).2 hr.1
    rw [Node.onMessage, if_neg hs]
    rcases n.handleRequest_cases true now r.coordinatorId A r.sessionId with
      ⟨hnot, -⟩ | ⟨i, -, ⟨hself, -⟩ | ⟨-, -, he⟩⟩
    · exact absurd hmem hnot
    · rcases hself with hself | hself
      · exact absurd hself hr.2
      · cases hself
    · rw [he]
      exact ⟨rfl, _, rfl, partyAssignments_of_perm hA (parsedAssignments_nodup hX _) n.id n.id⟩
  · exact ha.elim

/-- A step that assigns nothing leaves the node in its session. -/
theorem Node.In.step (hin : n.In r) (hassigns : l.assigns n.id = none)
    (hcompletes : n.completes l = none) (h : n.step l = some n') : n'.In r := by
  obtain ⟨hcurrent, inst, hinst, hperm⟩ := hin
  refine ⟨?_, ?_⟩
  · rw [step_currentSessionId h, hassigns]
    exact hcurrent
  · have hroster : Exchange.SameRoster n n' := by
      rcases step_cases h with ⟨now, rfl, rfl⟩ | ⟨source, published, now, msg, rfl, hs, rfl⟩ |
          ⟨-, -, -, hw⟩
      · cases hassigns
      · cases msg with
        | request c A sid =>
          rcases n.handleRequest_cases published now c A sid with ⟨-, he⟩ | ⟨i, hi, -⟩
          · exact .inl (by rw [he])
          · have hmem : X.peerToString n.id ∈ A := AList.lookup_isSome.1 (by simp [hi])
            simp [NodeLabel.assigns, hs, hmem] at hassigns
        | acceptance p i sid =>
          rcases n.handleAcceptance_cases published now p i sid with
            ⟨-, he⟩ | ⟨session, hsession, ⟨-, he⟩ | ⟨ha, he⟩⟩
          · exact .inl (by rw [he])
          · exact .inl (by rw [he]; rfl)
          · -- an Acceptance that installs an orchestrator completes its session
            have hc : n.completes (.receive source published now
                (.assignment (.acceptance p i sid))) = some sid := by
              apply completes_eq_some.2
              exact ⟨source, published, now, p, i, session, rfl, hsession, hs, ha⟩
            rw [hcompletes] at hc
            cases hc
      · exact Exchange.SameRoster.of_works hw
    rcases hroster with he | ⟨inst₁, inst', hinst₁, hinst', he⟩
    · exact ⟨inst, by rw [he, hinst], hperm⟩
    · obtain rfl := Option.some.inj (hinst.symm.trans hinst₁)
      have hassign : inst'.orch.partyAssignments = inst.orch.partyAssignments :=
        congrArg (fun r => r.2.1) he
      exact ⟨inst', hinst', by rw [hassign]; exact hperm⟩

theorem Request.Arrives.assigns_eq {p : X.PeerId} (ha : r.Arrives p l) (hr : r.Addresses p) :
    l.assigns p = some r.sessionId := by
  unfold Arrives at ha
  split at ha
  · obtain ⟨hs, -, -, hA, rfl⟩ := ha
    exact if_pos ⟨hs, (AList.mem_of_perm hA).2 hr.1⟩
  · exact ha.elim

/-- From the first Request on, a participant is in the session of one of the two. -/
theorem Handles.in_one (hX : X.Lawful) {ls : List (NodeLabel X)}
    (h₁ : r₁.Addresses n.id) (h₂ : r₂.Addresses n.id)
    (honly : (nodeMachine X).Meets (fun n l => r₁.Arrives n.id l ∨ r₂.Arrives n.id l ∨
      l.assigns n.id = none ∧ n.completes l = none) n ls)
    (hr : (nodeMachine X).run n ls = some n')
    (hbegun : (∃ l ∈ ls, r₁.Arrives n.id l) ∨ n.In r₁ ∨ n.In r₂) : n'.In r₁ ∨ n'.In r₂ := by
  -- the induction carries that a Request is still to come or one has been handled
  induction ls generalizing n with
  | nil =>
    cases hr
    rcases hbegun with ⟨l, hl, -⟩ | hin
    · cases hl
    · exact hin
  | cons l ls ih =>
    obtain ⟨m, hm, hrest⟩ := Machine.run_cons_eq_some.1 hr
    have hid : m.id = n.id := (Node.step_slot hm).1
    rw [← hid] at h₁ h₂
    refine ih h₁ h₂ (honly.2 m hm) hrest ?_
    rw [hid] at h₁ h₂ ⊢
    rcases honly.1 with ha | ha | ⟨hassigns, hcompletes⟩
    · exact .inr (.inl (ha.adopted hX h₁ hm))
    · exact .inr (.inr (ha.adopted hX h₂ hm))
    · rcases hbegun with ⟨l', hl', ha⟩ | hin | hin
      · rcases List.mem_cons.1 hl' with rfl | hl'
        · rw [ha.assigns_eq h₁] at hassigns
          cases hassigns
        · exact .inl ⟨l', hl', ha⟩
      · exact .inr (.inl (hin.step hassigns hcompletes hm))
      · exact .inr (.inr (hin.step hassigns hcompletes hm))

/-- Let any number of participants each handle two Requests of different sessions, in whatever
order. Each ends in the session, and with the party assignments, of the Request it has handled
last; so they all end in that of the second exactly if all have handled the second last. -/
theorem last_request_wins (hX : X.Lawful) {ι : Type} {r₁ r₂ : Request}
    (hne : r₁.sessionId ≠ r₂.sessionId) {m m' : ι → Node X} {ls : ι → List (NodeLabel X)}
    (h : ∀ k, Handles r₁ r₂ (m k) (ls k))
    (hr : ∀ k, (nodeMachine X).run (m k) (ls k) = some (m' k)) :
    (∀ k, ∃ r, (r = r₁ ∨ r = r₂) ∧ lastAssigned (m k).id (ls k) = some r.sessionId ∧
      (m' k).In r) ∧
    ((∀ k, (m' k).In r₂) ↔ ∀ k, lastAssigned (m k).id (ls k) = some r₂.sessionId) := by
  have hlast : ∀ k, ∃ r, (r = r₁ ∨ r = r₂) ∧
      lastAssigned (m k).id (ls k) = some r.sessionId ∧ (m' k).In r := by
    intro k
    have hk := h k
    have hcurrent := Node.run_currentSessionId (hr k)
    cases hsid : lastAssigned (m k).id (ls k) with
    | none =>
      obtain ⟨l, hl, ha⟩ := hk.arrives₁
      have hnone := assigns_eq_none_of_lastAssigned hsid l hl
      rw [ha.assigns_eq hk.addresses₁] at hnone
      cases hnone
    | some sid =>
      have hsession : ∀ r, (m' k).In r → sid = r.sessionId := by
        intro r hin
        rw [hin.1, hsid] at hcurrent
        exact (Option.some.inj hcurrent).symm
      rcases Handles.in_one hX hk.addresses₁ hk.addresses₂ hk.only (hr k) (.inl hk.arrives₁) with
        hin | hin
      · exact ⟨r₁, .inl rfl, congrArg some (hsession r₁ hin), hin⟩
      · exact ⟨r₂, .inr rfl, congrArg some (hsession r₂ hin), hin⟩
  refine ⟨hlast, forall_congr' fun k => ?_⟩
  obtain ⟨r, hor, hsid, hin⟩ := hlast k
  rcases hor with rfl | rfl
  · constructor
    · intro hin₂
      rw [hsid, ← hin.1, hin₂.1]
    · intro hsid₂
      rw [hsid] at hsid₂
      exact absurd (Option.some.inj hsid₂) hne
  · exact ⟨fun _ => hsid, fun _ => hin⟩

/-! ### Two participants that do not agree -/

namespace CrossedRun

open ThreeNodes

/-- The node `a` assigns twice; between the calls `b` reconnects and so changes places with `c`. The
two Requests reach `b` in their order, and `c` in the other. -/
def labels : List (NetLabel .plain 3) :=
  [.act a (.identify "b"), .act a (.identify "c"), .act a (.assignPeerIndices 5),
    .act a (.connectionClosed "b"), .act a (.identify "b"), .act a (.assignPeerIndices 6),
    .process a true, .process a true, .deliver 0 true 6, .deliver 1 true 6, .deliver 1 true 6,
    .deliver 0 true 6]

end CrossedRun

/-- Both have handled both Requests; `b` is in the second session, `c` in the first, and each has
itself at the index 2. -/
theorem crossed_requests_diverge : ∃ (t : Net .plain 3) (ib ic : Instance .plain),
    (netMachine .plain 3).init ThreeNodes.start ∧
      (netMachine .plain 3).run ThreeNodes.start CrossedRun.labels = some t ∧
      (t.hosts ThreeNodes.b).node.currentSessionId = some "a-6" ∧
      (t.hosts ThreeNodes.c).node.currentSessionId = some "a-5" ∧
      (t.hosts ThreeNodes.b).node.mpcOrchestrator = some ib ∧
      (t.hosts ThreeNodes.c).node.mpcOrchestrator = some ic ∧
      (ib.orch.partyAssignments : HashMap Platform.plain.PeerId PartyIndex).lookup "b" = some 2 ∧
      (ic.orch.partyAssignments : HashMap Platform.plain.PeerId PartyIndex).lookup "c" = some 2 :=
  ⟨_, _, _, ⟨ThreeNodes.ids, ThreeNodes.ids_injective, rfl⟩, rfl, rfl, rfl, rfl, rfl, rfl, rfl⟩

/-! ### Two participants that agree -/

namespace OrderedRun

/-- The Requests of the two calls. -/
def earlier : Request := ⟨"a", .ofEntries [("a", 0), ("b", 1), ("c", 2)], "a-5"⟩

def later : Request := ⟨"a", .ofEntries [("a", 0), ("c", 1), ("b", 2)], "a-6"⟩

/-- The Request is received from `a`. -/
def arrival (r : Request) : NodeLabel .plain :=
  .receive (some "a") true 6 (.assignment (.request r.coordinatorId r.assignments r.sessionId))

theorem arrival_arrives (r : Request) {p : Platform.plain.PeerId} (hp : p ≠ "a") :
    r.Arrives p (arrival r) :=
  ⟨fun h => hp (Option.some.inj h).symm, rfl, rfl, .refl _, rfl⟩

theorem handles {p : Platform.plain.PeerId} (hp : p ≠ "a") (h₁ : earlier.Addresses p)
    (h₂ : later.Addresses p) : Handles earlier later (.new p) [arrival earlier, arrival later] where
  addresses₁ := h₁
  addresses₂ := h₂
  arrives₁ := ⟨_, List.mem_cons_self, arrival_arrives earlier hp⟩
  arrives₂ := ⟨_, List.mem_cons_of_mem _ List.mem_cons_self, arrival_arrives later hp⟩
  only := by
    refine ⟨.inl (arrival_arrives earlier hp), fun m hm => ⟨.inr (.inl ?_), fun _ _ => trivial⟩⟩
    have hstep : Node.step (.new p) (arrival earlier) = some m := hm
    rw [show m.id = p from (Node.step_slot hstep).1]
    exact arrival_arrives later hp

/-- The participants. -/
def participant : Bool → Platform.plain.PeerId
  | false => "b"
  | true => "c"

end OrderedRun

/-- Both handle the Requests in their order, and end in the session of the second. -/
theorem ordered_requests_agree : ∃ m' : Bool → Node .plain,
    (m' false).id = "b" ∧ (m' false).In OrderedRun.later ∧
      (m' true).id = "c" ∧ (m' true).In OrderedRun.later := by
  have hrun : ∀ k, ∃ m', (nodeMachine .plain).run (.new (OrderedRun.participant k))
      [OrderedRun.arrival OrderedRun.earlier, OrderedRun.arrival OrderedRun.later] = some m' :=
    fun k => ⟨_, rfl⟩
  choose m' hm' using hrun
  have hhandles : ∀ k, Handles OrderedRun.earlier OrderedRun.later
      (.new (OrderedRun.participant k))
        [OrderedRun.arrival OrderedRun.earlier, OrderedRun.arrival OrderedRun.later] := by
    rintro (_ | _)
    · exact OrderedRun.handles (show "b" ≠ "a" by decide) (by decide) (by decide)
    · exact OrderedRun.handles (show "c" ≠ "a" by decide) (by decide) (by decide)
  have hwins := last_request_wins Platform.plain_lawful (by decide) hhandles hm'
  have hin : ∀ k, (m' k).In OrderedRun.later := by
    refine hwins.2.2 ?_
    rintro (_ | _) <;> decide +kernel
  exact ⟨m', Node.run_id (hm' false), hin false, Node.run_id (hm' true), hin true⟩

end P2pMpc
