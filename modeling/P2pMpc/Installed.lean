import P2pMpc.Node
import P2pMpc.PhaseShape

/-!
# The orchestrator installed on a node

A node only ever installs an orchestrator for an assignment that lists it, and from then on the
orchestrator is stepped as `orchestratorMachine` steps it, one handler at a time. So in every
reachable node the installed orchestrator has one of the shapes of `PhaseShape`, belongs to the
node, and finds the index of the node in its assignment: `reachable_wellFormed`.

`Node.step_cases` separates the steps that assign from those that work on what is installed.
-/

namespace P2pMpc

open StateMachine MPCOrchestrator

variable {X : Platform}

/-! ### Handlers in one piece -/

/-- A message that does not pass the checks before the state write leaves no trace. -/
theorem handle_of_not_enters {o : MPCOrchestrator X} {msg : CoordinationMessage X}
    (h : ¬ o.Enters msg) (chan : ChannelId) (sender : X.PeerId) :
    (o.handleCoordinationMessage chan sender msg).orch = o ∧
      (o.handleCoordinationMessage chan sender msg).spawned = none := by
  cases msg with
  | initiateAux eid ps pa timestamp =>
    rcases handleInitiateAux_cases o chan sender eid pa timestamp with ⟨e, -, he⟩ | ⟨i, ts, hc, -⟩
    · simp [handleCoordinationMessage, he]
    · exact absurd ⟨i, ts, hc⟩ h
  | initiateKeygen eid t n timestamp =>
    rcases handleInitiateKeygen_cases o chan sender eid t n timestamp with
      ⟨e, -, he⟩ | ⟨i, ts, hc, -⟩
    · simp [handleCoordinationMessage, he]
    · exact absurd ⟨i, ts, hc⟩ h
  | initiateSigning eid m s timestamp =>
    rcases handleInitiateSigning_cases o chan sender eid m s timestamp with
      ⟨e, -, he⟩ | ⟨i, ts, hc, -⟩
    · simp [handleCoordinationMessage, he]
    · exact absurd ⟨i, ts, hc⟩ h
  | auxCompleted | keygenCompleted | signingCompleted | protocolFailed => exact ⟨rfl, rfl⟩

/-- No handler changes the participants, the assignment or the local peer. -/
theorem handle_roster (o : MPCOrchestrator X) (chan : ChannelId) (sender : X.PeerId)
    (msg : CoordinationMessage X) :
    (o.handleCoordinationMessage chan sender msg).orch.roster = o.roster := by
  cases msg with
  | initiateAux eid ps pa timestamp =>
    show (o.handleInitiateAux chan sender eid pa timestamp).orch.roster = o.roster
    rcases handleInitiateAux_cases o chan sender eid pa timestamp with
      ⟨_, -, he⟩ | ⟨_, _, -, he⟩
    · rw [he]
    · rw [he]
      rfl
  | initiateKeygen eid t n timestamp =>
    show (o.handleInitiateKeygen chan sender eid t n timestamp).orch.roster = o.roster
    rcases handleInitiateKeygen_cases o chan sender eid t n timestamp with
      ⟨_, -, he⟩ | ⟨_, _, -, ⟨-, he⟩ | ⟨_, -, he⟩⟩
    · rw [he]
    · rw [he]
      rfl
    · rw [he]
      rfl
  | initiateSigning eid m s timestamp =>
    show (o.handleInitiateSigning chan sender eid m s timestamp).orch.roster = o.roster
    rcases handleInitiateSigning_cases o chan sender eid m s timestamp with
      ⟨_, -, he⟩ | ⟨_, _, -, ⟨-, he⟩ | ⟨-, -, he⟩ | ⟨-, _, _, -, -, he⟩⟩
    · rw [he]
    · rw [he]
      rfl
    · rw [he]
      rfl
    · rw [he]
      rfl
  | auxCompleted | keygenCompleted | signingCompleted | protocolFailed => rfl

/-- A handler in one piece is a run of the orchestrator in which no protocol run returns: where it
passes its checks no aux task is storing, so it finds its locks free. -/
theorem Config.Shaped.run_reply {c : Config X} (h : c.Shaped) (hp : c.pending = none)
    (chan : ChannelId) (sender : X.PeerId) (msg : CoordinationMessage X) :
    ∃ ls, (orchestratorMachine X).run c ls =
        some (c.reply (c.inst.orch.handleCoordinationMessage chan sender msg)) ∧
      ∀ i r, Label.finish i r ∉ ls := by
  by_cases hmsg : c.inst.orch.Enters msg
  · have hread : c.auxReadable = true := by
      obtain ⟨⟨o, tasks⟩, pend⟩ := c
      have hst : ∀ q e, o.state ≠ .auxGeneration q e := by
        intro q e hs
        have hr : o.state = .idle ∨ _ := hmsg.ready
        simp [hs, readyForKeygen, readyForSigning] at hr
      simp only [Config.Shaped] at h
      unfold Config.auxReadable
      generalize o.state = st, pend = p, o.auxInfo = a, o.keyShare = k at h hst
      cases h with
      | auxStored q e => exact absurd rfl (hst q e)
      | keygenCompleted _ _ _ _ _ _ _ _ _ _ hw => cases hw <;> rfl
      | signingEntered _ _ _ _ _ _ _ _ _ _ _ _ _ _ _ hw => cases hw <;> rfl
      | auxActive q e => exact absurd rfl (hst q e)
      | _ => rfl
    obtain ⟨k, hrun⟩ := run_call_uninterrupted hp hread chan sender msg
    refine ⟨_, hrun, fun i r hmem => ?_⟩
    rcases List.mem_cons.1 hmem with he | hmem
    · cases he
    · cases List.eq_of_mem_replicate hmem
  · obtain ⟨h1, h2⟩ := handle_of_not_enters hmsg chan sender
    refine ⟨[], ?_, fun i r => List.not_mem_nil⟩
    obtain ⟨⟨o, tasks⟩, pend⟩ := c
    obtain rfl : pend = none := hp
    simp only [Machine.run_nil, Config.reply, h1, h2, Option.toList_none, List.append_nil]

/-- A handler keeps the shape. -/
theorem Config.Shaped.reply {c : Config X} (h : c.Shaped) (hp : c.pending = none)
    (chan : ChannelId) (sender : X.PeerId) (msg : CoordinationMessage X) :
    (c.reply (c.inst.orch.handleCoordinationMessage chan sender msg)).Shaped := by
  obtain ⟨ls, hrun, -⟩ := h.run_reply hp chan sender msg
  exact Machine.run_preserves (I := Config.Shaped) (fun _ _ _ hs hl => hs.step hl) h hrun

/-! ### Assigning and working -/

namespace Node

/-- What a step that assigns nothing does to the installed orchestrator. -/
inductive Works (n : Node X) (l : NodeLabel X) : Option (Instance X) → Prop
  | keep : Works n l n.mpcOrchestrator
  | coordinate (inst : Instance X) (p : X.PeerId) (msg : CoordinationMessage X)
      (hinst : n.mpcOrchestrator = some inst) (hl : n.handled l = some (p, msg)) :
      Works n l (n.coordinate inst p msg).1.mpcOrchestrator
  | task (inst : Instance X) (l' : Label X) (c : Config X) (hinst : n.mpcOrchestrator = some inst)
      (hl : (∃ i r, l' = .finish i r) ∨ ∃ i, l' = .advance i)
      (hc : Config.step ⟨inst, none⟩ l' = some c) : Works n l (some c.inst)

variable {n n' : Node X}

/-- The step leaves the sessions alone and at most works on the installed orchestrator. -/
def WorksTo (n : Node X) (l : NodeLabel X) (n' : Node X) : Prop :=
  n'.sessions = n.sessions ∧ n'.currentSessionId = n.currentSessionId ∧ n'.retired = n.retired ∧
    n.Works l n'.mpcOrchestrator

theorem worksTo_of_handled {r : RpcReply X} {l : NodeLabel X} (hr : r.Handled n)
    (hl : n.handled l = r.broadcast.map (n.id, ·)) : n.WorksTo l r.node := by
  rcases hr with ⟨-, he⟩ | ⟨inst, msg, hinst, hb, he⟩
  · rw [he]
    exact ⟨rfl, rfl, rfl, .keep⟩
  · rw [he]
    rw [hb, Option.map_some] at hl
    exact ⟨rfl, rfl, rfl, .coordinate inst n.id msg hinst hl⟩

theorem worksTo_of_task {l : NodeLabel X} {l' : Label X}
    (hl : (∃ i r, l' = .finish i r) ∨ ∃ i, l' = .advance i)
    (h : (n.taskStep l').map (fun m => (m, ([] : List (NetworkCommand X)))) = some (n', [])) :
    n.WorksTo l n' := by
  simp only [Option.map_eq_some_iff] at h
  obtain ⟨m, hm, he⟩ := h
  cases he
  obtain ⟨inst, c, hinst, hc, rfl⟩ := taskStep_eq_some.1 hm
  exact ⟨rfl, rfl, rfl, .task inst l' c hinst hl hc⟩

/-- A step assigns by RPC, handles an assignment message, or works on what is installed. -/
theorem step_cases {l : NodeLabel X} (h : n.step l = some n') :
    (∃ now, l = .act (.assignPeerIndices now) ∧ n' = (n.assignPeerIndices now).1) ∨
    (∃ source published now msg, l = .receive source published now (.assignment msg) ∧
      source ≠ some n.id ∧ n' = (n.handleAssignmentMessage published now msg).1) ∨
    n.WorksTo l n' := by
  cases l with
  | receive source published now g =>
    obtain rfl := Option.some.inj h
    rcases n.onMessage_cases source published now g with he | ⟨msg, rfl, hs, he⟩ |
        ⟨p, msg, inst, rfl, rfl, hp, hinst, he⟩ <;> rw [he]
    · exact .inr (.inr ⟨rfl, rfl, rfl, .keep⟩)
    · exact .inr (.inl ⟨source, published, now, msg, rfl, hs, rfl⟩)
    · exact .inr (.inr ⟨rfl, rfl, rfl, .coordinate inst p msg hinst (if_neg hp)⟩)
  | act a =>
    obtain ⟨⟨m, cs⟩, ha, rfl⟩ := Option.map_eq_some_iff.1 h
    cases a with
    | assignPeerIndices now =>
      cases ha
      exact .inl ⟨now, rfl, rfl⟩
    | identify peer =>
      cases ha
      refine .inr (.inr ?_)
      show n.WorksTo _ (n.onIdentify peer)
      unfold onIdentify
      split_ifs <;> exact ⟨rfl, rfl, rfl, .keep⟩
    | connectionClosed | broadcast =>
      cases ha
      exact .inr (.inr ⟨rfl, rfl, rfl, .keep⟩)
    | initiateAuxGen timestamp =>
      cases ha
      exact .inr (.inr (worksTo_of_handled (n.initiateAuxGen_handled timestamp) rfl))
    | initiateKeygen threshold timestamp =>
      cases ha
      exact .inr (.inr (worksTo_of_handled (n.initiateKeygen_handled threshold timestamp) rfl))
    | initiateSigning message signers timestamp =>
      cases ha
      exact .inr (.inr (worksTo_of_handled
        (n.initiateSigning_handled message signers timestamp) rfl))
    | finish i r =>
      obtain ⟨m', -, he⟩ := Option.map_eq_some_iff.1 ha
      cases he
      exact .inr (.inr (worksTo_of_task (.inl ⟨i, r, rfl⟩) ha))
    | advance i =>
      obtain ⟨m', -, he⟩ := Option.map_eq_some_iff.1 ha
      cases he
      exact .inr (.inr (worksTo_of_task (.inr ⟨i, rfl⟩) ha))
    | emit φ out =>
      simp only [act, Option.ite_none_right_eq_some, Option.some.injEq, Prod.mk.injEq] at ha
      obtain ⟨-, rfl, -⟩ := ha
      exact .inr (.inr ⟨rfl, rfl, rfl, .keep⟩)

/-! ### The invariant -/

/-- The orchestrator belongs to the node `p`, finds it in its assignment, and has one of the shapes
of a run. -/
structure WellInstalled (p : X.PeerId) (inst : Instance X) : Prop where
  here : inst.orch.localPeerId = p
  listed : p ∈ inst.orch.partyAssignments
  shaped : Config.Shaped ⟨inst, none⟩

/-- Every session of the node lists it, and its orchestrator is well installed. -/
structure WellFormed (n : Node X) : Prop where
  sessions : ∀ sid session, n.sessions.lookup sid = some session →
    X.peerToString n.id ∈ session.assignments
  slot : ∀ inst, n.mpcOrchestrator = some inst → WellInstalled n.id inst

end Node

theorem HashMap.mem_ofEntries {K V : Type} [DecidableEq K] {es : List (K × V)} {k : K} :
    k ∈ HashMap.ofEntries es ↔ ∃ v, (k, v) ∈ es := by
  suffices hfold : ∀ m : HashMap K V, k ∈ es.foldl (fun m e => m.insert e.1 e.2) m ↔
      (∃ v, (k, v) ∈ es) ∨ k ∈ m by
    have h := hfold ∅
    simpa [ofEntries, AList.notMem_empty] using h
  induction es with
  | nil => simp
  | cons e es ih =>
    intro m
    rw [List.foldl_cons, ih, AList.mem_insert]
    obtain ⟨k', v'⟩ := e
    simp only [List.mem_cons, Prod.mk.injEq]
    constructor
    · rintro (⟨v, hv⟩ | rfl | hm)
      · exact .inl ⟨v, .inr hv⟩
      · exact .inl ⟨v', .inl ⟨rfl, rfl⟩⟩
      · exact .inr hm
    · rintro (⟨v, ⟨rfl, rfl⟩ | hv⟩ | hm)
      · exact .inr (.inl rfl)
      · exact .inl ⟨v, hv⟩
      · exact .inr (.inr hm)

namespace Node

variable {n n' : Node X}

/-- The assignments of a call list the node and its peers. -/
theorem mem_createAssignments {k : String} :
    k ∈ n.createAssignments ↔ k ∈ (n.id :: n.peerList).map X.peerToString := by
  have hcreate : n.createAssignments =
      .ofEntries (((n.id :: n.peerList).map X.peerToString).zipIdx) := rfl
  have hfst : ∀ es : List (String × ℕ), (∃ v, (k, v) ∈ es) ↔ k ∈ es.map Prod.fst := by
    intro es
    simp
  rw [hcreate, HashMap.mem_ofEntries, hfst, List.zipIdx_map_fst]

/-- An orchestrator for an assignment that lists the node is well installed. -/
theorem wellInstalled_ofAssignments (hX : X.ParsesPeers) {p : X.PeerId}
    {assignments : HashMap String ℕ} (h : X.peerToString p ∈ assignments) :
    WellInstalled p ⟨.ofAssignments p assignments, []⟩ where
  here := rfl
  listed := by
    show p ∈ HashMap.ofEntries (parsedAssignments assignments)
    apply HashMap.mem_ofEntries.2
    obtain ⟨e, he, hkey⟩ := List.mem_map.1 (AList.mem_keys.1 h)
    refine ⟨UInt16.ofNat e.2, List.mem_filterMap.2 ⟨e, he, ?_⟩⟩
    rw [hkey, hX _]
    rfl
  shaped := .idle

theorem WellFormed.assign (h : n.WellFormed) (now : UInt64) :
    (n.assignPeerIndices now).1.WellFormed where
  sessions := by
    intro sid session hs
    show X.peerToString n.id ∈ session.assignments
    rcases of_lookup_record hs with ⟨-, rfl⟩ | hs
    · exact HashMap.mem_ofEntries.2 ⟨0, List.mem_cons_self⟩
    · exact h.sessions sid session hs
  slot := h.slot

theorem WellFormed.adopt (h : n.WellFormed) {assignments : HashMap String ℕ}
    (hmem : X.peerToString n.id ∈ assignments) (now : UInt64) (coordinatorId sid : String) :
    (n.adopt now coordinatorId assignments sid).WellFormed where
  sessions := by
    intro sid' session hs
    show X.peerToString n.id ∈ session.assignments
    rcases of_lookup_adopt hs with ⟨-, rfl⟩ | hs
    · exact hmem
    · exact h.sessions sid' session hs
  slot := h.slot

theorem WellFormed.record (h : n.WellFormed) {session : SessionInfo}
    (hmem : X.peerToString n.id ∈ session.assignments) (sid : String) :
    (n.record sid session).WellFormed where
  sessions := by
    intro sid' s hs
    show X.peerToString n.id ∈ s.assignments
    rcases of_lookup_record hs with ⟨-, rfl⟩ | hs
    · exact hmem
    · exact h.sessions sid' s hs
  slot := h.slot

theorem WellFormed.install (hX : X.ParsesPeers) (h : n.WellFormed) {assignments : HashMap String ℕ}
    (hmem : X.peerToString n.id ∈ assignments) : (n.install assignments).WellFormed where
  sessions := h.sessions
  slot := by
    rintro _ ⟨⟩
    exact wellInstalled_ofAssignments hX hmem

theorem WellFormed.handleAssignmentMessage (hX : X.ParsesPeers) (h : n.WellFormed)
    (published : Bool) (now : UInt64) (msg : AssignmentMessage) :
    (n.handleAssignmentMessage published now msg).1.WellFormed := by
  cases msg with
  | request coordinatorId assignments sid =>
    rcases n.handleRequest_cases published now coordinatorId assignments sid with
      ⟨-, he⟩ | ⟨i, hi, ⟨-, he⟩ | ⟨-, -, he⟩⟩ <;> rw [he]
    · exact h
    · exact h.adopt (AList.lookup_isSome.1 (by simp [hi])) now coordinatorId sid
    · have hmem : X.peerToString n.id ∈ assignments := AList.lookup_isSome.1 (by simp [hi])
      exact (h.adopt hmem now coordinatorId sid).install hX hmem
  | acceptance peerId i sid =>
    rcases n.handleAcceptance_cases published now peerId i sid with
      ⟨-, he⟩ | ⟨session, hs, ⟨-, he⟩ | ⟨-, he⟩⟩ <;> rw [he]
    · exact h
    · have hmem : X.peerToString n.id ∈ (session.accept peerId).assignments :=
        h.sessions sid session hs
      exact h.record hmem sid
    · have hmem : X.peerToString n.id ∈ (session.accept peerId).assignments :=
        h.sessions sid session hs
      exact (h.record hmem sid).install hX hmem

theorem WellInstalled.of_roster {p : X.PeerId} {inst inst' : Instance X}
    (h : WellInstalled p inst) (hr : inst'.orch.roster = inst.orch.roster)
    (hshaped : Config.Shaped ⟨inst', none⟩) : WellInstalled p inst' := by
  obtain ⟨h1, h2, h3⟩ : inst'.orch.participants = inst.orch.participants ∧
      inst'.orch.partyAssignments = inst.orch.partyAssignments ∧
      inst'.orch.localPeerId = inst.orch.localPeerId := by simpa [roster] using hr
  exact ⟨h3.trans h.here, h2 ▸ h.listed, hshaped⟩

theorem Works.shaped {l : NodeLabel X} {slot : Option (Instance X)} (hw : n.Works l slot)
    (h : ∀ inst, n.mpcOrchestrator = some inst → Config.Shaped ⟨inst, none⟩) :
    ∀ inst, slot = some inst → Config.Shaped ⟨inst, none⟩ := by
  cases hw with
  | keep => exact h
  | coordinate inst p msg hinst hl =>
    rintro _ ⟨⟩
    exact (h inst hinst).reply rfl n.nextChannel p msg
  | task inst l' c hinst hl hc =>
    rintro _ ⟨⟩
    have hpend : c.pending = none := by
      rcases hl with ⟨i, r, rfl⟩ | ⟨i, rfl⟩
      · obtain ⟨_, _, -, -, rfl⟩ := Config.step_finish_eq_some.1 hc
        rfl
      · obtain ⟨_, _, _, -, -, rfl⟩ := Config.step_advance_eq_some.1 hc
        rfl
    have hshaped := (h inst hinst).step hc
    rw [show c = ⟨c.inst, none⟩ by rw [← hpend]] at hshaped
    exact hshaped

theorem Works.wellInstalled {l : NodeLabel X} {slot : Option (Instance X)} (hw : n.Works l slot)
    (h : ∀ inst, n.mpcOrchestrator = some inst → WellInstalled n.id inst) :
    ∀ inst, slot = some inst → WellInstalled n.id inst := by
  have hshaped := hw.shaped fun inst hinst => (h inst hinst).shaped
  cases hw with
  | keep => exact h
  | coordinate inst p msg hinst hl =>
    rintro _ ⟨⟩
    exact (h inst hinst).of_roster (handle_roster _ _ _ _) (hshaped _ rfl)
  | task inst l' c hinst hl hc =>
    rintro _ ⟨⟩
    exact (h inst hinst).of_roster (Config.step_roster hc) (hshaped _ rfl)

theorem WellFormed.step (hX : X.ParsesPeers) (h : n.WellFormed) {l : NodeLabel X}
    (hl : n.step l = some n') : n'.WellFormed := by
  rcases step_cases hl with ⟨now, -, rfl⟩ | ⟨_, published, now, msg, -, -, rfl⟩ |
      ⟨hs, -, -, hw⟩
  · exact h.assign now
  · exact h.handleAssignmentMessage hX published now msg
  · have hid := (step_slot hl).1
    exact ⟨by rw [hs, hid]; exact h.sessions, by rw [hid]; exact hw.wellInstalled h.slot⟩

end Node

/-- In every reachable node the orchestrator is well installed. -/
theorem reachable_wellFormed (hX : X.ParsesPeers) {n : Node X} (h : (nodeMachine X).Reachable n) :
    n.WellFormed := by
  apply h.induct
  · rintro _ ⟨id, rfl⟩
    exact ⟨fun sid session hs => by simp [Node.new] at hs, by rintro _ ⟨⟩⟩
  · intro n l n' hn hl
    exact hn.step hX hl

end P2pMpc
