import P2pMpc.LockedSteps

/-!
# Reported readiness

`get_session_status` computes `all_accepted` from the session as it stands. The orchestrator is
installed elsewhere: when an Acceptance completes the session, and by then the event loop has let
the sessions go. So a session with nobody to accept it is reported complete though nothing will ever
be installed for it, a complete session is reported before its orchestrator is there, and it is
reported still when another assignment has replaced the orchestrator. Otherwise what is reported is
installed.
-/

namespace P2pMpc

open StateMachine MPCOrchestrator

variable {X : Platform}

/-- `SessionStatusResponse`. -/
structure SessionStatusResponse where
  success : Bool
  sessionId : String
  coordinatorId : String
  assignments : HashMap String ℕ
  acceptances : HashMap String Bool
  acceptanceCount : ℕ
  totalNodes : ℕ
  allAccepted : Bool
  createdAt : UInt64
  message : String

/-- The response when there is no session to report. -/
def SessionStatusResponse.missing (sessionId message : String) : SessionStatusResponse where
  success := false
  sessionId := sessionId
  coordinatorId := ""
  assignments := ∅
  acceptances := ∅
  acceptanceCount := 0
  totalNodes := 0
  allAccepted := false
  createdAt := 0
  message := message

/-- The response for a session. -/
def SessionInfo.status (s : SessionInfo) : SessionStatusResponse where
  success := true
  sessionId := s.sessionId
  coordinatorId := s.coordinatorId
  assignments := s.assignments
  acceptances := s.acceptances
  acceptanceCount := s.acceptanceCount
  totalNodes := s.totalNodes
  allAccepted := s.allAccepted
  createdAt := s.createdAt
  message :=
    if s.allAccepted then
      "All " ++ toString s.acceptanceCount ++ " peers have accepted their assignments"
    else
      "Waiting for acceptances: " ++ toString s.acceptanceCount ++ "/" ++
        toString (usizeSub s.totalNodes 1) ++ " received"

/-- `get_session_status`. -/
def Node.getSessionStatus (n : Node X) (sessionId : Option String) : SessionStatusResponse :=
  match sessionId <|> n.currentSessionId with
  | none => .missing "" "No active session found"
  | some targetSessionId =>
    match n.sessions.lookup targetSessionId with
    | some session => session.status
    | none => .missing targetSessionId ("Session '" ++ targetSessionId ++ "' not found")

namespace LockedNode

variable {s t : LockedNode X} {l : LockLabel X} {sid : String} {A : HashMap String ℕ}

/-- The orchestrator of the node is one for the assignments. -/
def InstalledFor (s : LockedNode X) (A : HashMap String ℕ) : Prop :=
  ∃ inst, s.node.mpcOrchestrator = some inst ∧
    inst.orch.roster = (MPCOrchestrator.ofAssignments s.node.id A).roster

/-- If the session is reported complete, its orchestrator is installed, and `initiate_aux_gen` does
not ask for one. -/
def Ready (s : LockedNode X) (sid : String) : Prop :=
  (s.node.getSessionStatus (some sid)).allAccepted = true →
    s.InstalledFor (s.node.getSessionStatus (some sid)).assignments ∧
      ∀ timestamp, (s.node.initiateAuxGen timestamp).result ≠ .error .notInitialized

/-- The event loop is about to install an orchestrator for the assignments. -/
def Installing (s : LockedNode X) (A : HashMap String ℕ) : Prop :=
  ∃ B, s.loop = some (.install B) ∧ (MPCOrchestrator.ofAssignments s.node.id B).roster =
    (MPCOrchestrator.ofAssignments s.node.id A : MPCOrchestrator X).roster

/-- The step does not install an orchestrator for other assignments than those of the session while
this is complete. -/
def InstallsOnly (sid : String) (s : LockedNode X) (l : LockLabel X) : Prop :=
  ∀ A session, l = .handle → s.loop = some (.install A) →
    s.node.sessions.lookup sid = some session → session.allAccepted = true →
      (MPCOrchestrator.ofAssignments s.node.id A).roster =
        (MPCOrchestrator.ofAssignments s.node.id session.assignments : MPCOrchestrator X).roster

theorem InstalledFor.initialized (h : s.InstalledFor A) (timestamp : SystemTime) :
    (s.node.initiateAuxGen timestamp).result ≠ .error .notInitialized := by
  obtain ⟨inst, hinst, -⟩ := h
  unfold Node.initiateAuxGen
  rw [hinst]
  dsimp only
  split
  · unfold Node.initiate
    cases timestamp.secsSinceEpoch with
    | none => simp
    | some ts =>
      dsimp only
      split <;> simp
  · simp

theorem ready_iff {session : SessionInfo} (h : s.node.sessions.lookup sid = some session) :
    s.Ready sid ↔ (session.allAccepted = true → s.InstalledFor session.assignments) := by
  have hstatus : s.node.getSessionStatus (some sid) = session.status := by
    simp [Node.getSessionStatus, h]
  rw [Ready, hstatus]
  exact forall_congr' fun _ => ⟨fun hr => hr.1, fun hi => ⟨hi, hi.initialized⟩⟩

/-! ### What a step does to a session and its orchestrator -/

/-- What a step that creates no session does to the session: it counts an acceptance of it, or
installs an orchestrator, or changes neither. -/
inductive SessionStep (sid : String) (session : SessionInfo) (s : LockedNode X) (l : LockLabel X)
    (t : LockedNode X) : Prop
  | accept (p : String) (hidle : s.loop = none)
      (hsession : t.node.sessions.lookup sid = some (session.accept p))
      (hslot : ∀ A, t.InstalledFor A ↔ s.InstalledFor A)
      (hloop : (session.accept p).allAccepted = true →
        t.loop = some (.install session.assignments))
  | install (A : HashMap String ℕ) (hl : l = .handle) (hwork : s.loop = some (.install A))
      (hsession : t.node.sessions.lookup sid = some session) (hloop : t.loop = none)
      (hslot : ∀ B, t.InstalledFor B ↔ (MPCOrchestrator.ofAssignments s.node.id A).roster =
        (MPCOrchestrator.ofAssignments s.node.id B : MPCOrchestrator X).roster)
  | keep (hnot : ¬ s.InstallsNow l) (hsession : t.node.sessions.lookup sid = some session)
      (hslot : ∀ A, t.InstalledFor A ↔ s.InstalledFor A)
      (hloop : s.loop = none ∨ t.loop = s.loop ∨ ∀ A, s.loop ≠ some (.install A))

/-- A message that is taken leaves a session as it is, or is an acceptance of it. -/
theorem takeMessage_session {n : Node X} {session : SessionInfo}
    (h : n.sessions.lookup sid = some session) (source : Option X.PeerId) (published : Bool)
    (now : UInt64) (g : Gossip X) :
    (n.takeMessage source published now g).1.sessions.lookup sid = some session ∨
    ∃ p, (n.takeMessage source published now g).1.sessions.lookup sid = some (session.accept p) ∧
      ((session.accept p).allAccepted = true →
        (n.takeMessage source published now g).2 = some (.install session.assignments)) := by
  unfold Node.takeMessage
  by_cases hs : source = some n.id
  · rw [if_pos hs]
    exact .inl h
  · rw [if_neg hs]
    cases g with
    | assignment msg =>
      cases msg with
      | request c A sid' =>
        left
        dsimp only
        by_cases hmem : X.peerToString n.id ∈ A
        · rw [if_pos hmem]
          exact Node.lookup_adopt h now c A sid'
        · rw [if_neg hmem]
          exact h
      | acceptance p i sid' =>
        dsimp only
        by_cases hsid : sid' = sid
        · subst hsid
          rw [h]
          refine .inr ⟨p, AList.lookup_insert _, fun ha => if_pos ha⟩
        · left
          cases hs' : n.sessions.lookup sid' with
          | none => exact h
          | some session' =>
            exact (n.lookup_record sid' sid _).trans ((if_neg (Ne.symm hsid)).trans h)
    | coordination | protocol | other => exact .inl h

theorem installedFor_congr (hid : t.node.id = s.node.id)
    (hslot : t.node.mpcOrchestrator.map (fun inst => inst.orch.roster) =
      s.node.mpcOrchestrator.map fun inst => inst.orch.roster) (A : HashMap String ℕ) :
    t.InstalledFor A ↔ s.InstalledFor A := by
  have hiff : ∀ u : LockedNode X, u.InstalledFor A ↔
      u.node.mpcOrchestrator.map (fun inst => inst.orch.roster) =
        some (MPCOrchestrator.ofAssignments u.node.id A).roster := by
    intro u
    rw [Option.map_eq_some_iff]
    rfl
  rw [hiff, hiff, hslot, hid]

theorem step_session {session : SessionInfo} (hsession : s.node.sessions.lookup sid = some session)
    (h : s.step l = some t) (hassign : ∀ now, l ≠ .act (.assignPeerIndices now)) :
    t.node.id = s.node.id ∧ SessionStep sid session s l t := by
  cases step_cases h with
  | take source published now g hl hidle hnode hloop =>
    obtain ⟨hid, hslot, -⟩ := takeMessage_keeps s.node source published now g
    rw [← hnode] at hid hslot
    have hsame := installedFor_congr hid (by rw [hslot])
    refine ⟨hid, ?_⟩
    rcases takeMessage_session hsession source published now g with hkeep | ⟨p, hp, hcomplete⟩
    · refine .keep (fun hi => ?_) (by rw [hnode, hkeep]) hsame (.inl hidle)
      rw [hl] at hi
      cases hi.1
    · exact .accept p hidle (by rw [hnode, hp]) hsame fun ha => hloop.trans (hcomplete ha)
  | install A hl hwork hnode hloop =>
    refine ⟨by rw [hnode]; rfl, .install A hl hwork (by rw [hnode]; exact hsession) hloop ?_⟩
    intro B
    rw [InstalledFor, hnode]
    constructor
    · rintro ⟨inst, hinst, hr⟩
      cases hinst
      exact hr
    · exact fun hr => ⟨_, rfl, hr⟩
  | assign now hl => exact absurd hl (hassign now)
  | work hid hsessions hcurrent hretired hslot hloop =>
    refine ⟨hid, .keep ?_ (by rw [hsessions]; exact hsession)
      (installedFor_congr hid hslot.roster) ?_⟩
    · rintro ⟨hl, A, hwork⟩
      rcases hloop with ⟨hne, -⟩ | ⟨-, hne⟩
      · exact hne hl
      · exact hne A hwork
    · rcases hloop with ⟨-, he⟩ | ⟨-, hne⟩
      · exact .inr (.inl he)
      · exact .inr (.inr hne)

/-- If the session is complete, its orchestrator is installed or about to be. -/
def Follows (s : LockedNode X) (sid : String) : Prop := s.Ready sid ∨
  s.Installing (s.node.getSessionStatus (some sid)).assignments

theorem follows_iff {session : SessionInfo} (h : s.node.sessions.lookup sid = some session) :
    s.Follows sid ↔ (session.allAccepted = true → s.InstalledFor session.assignments) ∨
      s.Installing session.assignments := by
  rw [Follows, ready_iff h]
  simp [Node.getSessionStatus, h, SessionInfo.status]

/-- From a state in which the orchestrator follows the session, it follows in the next exactly if
the step installs no other while the session is complete. -/
theorem follows_step_iff {session : SessionInfo}
    (hsession : s.node.sessions.lookup sid = some session) (hs : s.Follows sid)
    (h : s.step l = some t) (hassign : ∀ now, l ≠ .act (.assignPeerIndices now)) :
    t.Follows sid ↔ s.InstallsOnly sid l := by
  rw [follows_iff hsession] at hs
  obtain ⟨hid, hcase⟩ := step_session hsession h hassign
  cases hcase with
  | accept p hidle hsession' hslot hloop =>
    refine iff_of_true ?_ ?_
    · rw [follows_iff hsession']
      by_cases ha : (session.accept p).allAccepted = true
      · exact .inr ⟨_, hloop ha, rfl⟩
      · exact .inl fun ha' => absurd ha' ha
    · intro A _ _ hwork
      rw [hidle] at hwork
      cases hwork
  | install A hl hwork hsession' hloop hslot =>
    have hnot : ¬ t.Installing session.assignments := by
      rintro ⟨B, hB, -⟩
      rw [hloop] at hB
      cases hB
    rw [follows_iff hsession', or_iff_left hnot, hslot]
    constructor
    · intro hr B session' _ hB hs' ha
      obtain rfl := Option.some.inj (hsession.symm.trans hs')
      rw [hwork] at hB
      cases hB
      exact hr ha
    · exact fun hr ha => hr A session hl hwork hsession ha
  | keep hnot hsession' hslot hloop =>
    refine iff_of_true ?_ ?_
    · rw [follows_iff hsession', hslot]
      refine hs.imp_right ?_
      rintro ⟨B, hB, hr⟩
      rcases hloop with hnone | hsame | hne
      · rw [hnone] at hB
        cases hB
      · exact ⟨B, hsame.trans hB, by rw [hid]; exact hr⟩
      · exact absurd hB (hne B)
    · exact fun A _ hl hA _ _ => absurd ⟨hl, A, hA⟩ hnot

end LockedNode

/-! ### The session of a call -/

/-- The assignments of a call have one entry if it finds no other node. -/
theorem Node.length_createAssignments_eq_one (hX : X.ParsesPeers) (n : Node X) :
    n.createAssignments.entries.length = 1 ↔ ∀ p ∈ n.peerList, p = n.id := by
  have hlength : n.createAssignments.entries.length = n.createAssignments.keys.length := by
    simp [AList.keys, List.keys]
  have hmem : ∀ p ∈ n.id :: n.peerList, X.peerToString p ∈ n.createAssignments.keys :=
    fun p hp => AList.mem_keys.1 (mem_createAssignments.2 (List.mem_map_of_mem hp))
  rw [hlength, List.length_eq_one_iff]
  constructor
  · rintro ⟨k, hk⟩ p hp
    have hown := hmem n.id List.mem_cons_self
    have hpeer := hmem p (List.mem_cons_of_mem _ hp)
    rw [hk, List.mem_singleton] at hown hpeer
    exact hX.injective (hpeer.trans hown.symm)
  · intro hall
    have hsame : ∀ k ∈ n.createAssignments.keys, k = X.peerToString n.id := by
      intro k hk
      obtain ⟨p, hp, rfl⟩ := List.mem_map.1 (mem_createAssignments.1 (AList.mem_keys.2 hk))
      rcases List.mem_cons.1 hp with rfl | hp
      · rfl
      · rw [hall p hp]
    have hnodup := n.createAssignments.keys_nodup
    have hpos := List.length_pos_of_mem (hmem n.id List.mem_cons_self)
    refine ⟨X.peerToString n.id, ?_⟩
    rw [List.eq_replicate_of_mem hsame] at hnodup ⊢
    have hle := List.nodup_replicate.1 hnodup
    have hone : n.createAssignments.keys.length = 1 := by omega
    rw [hone]
    rfl

/-- A session is complete from its creation on if its call finds no other node. -/
theorem Node.allAccepted_new (hX : X.ParsesPeers) (n : Node X) (now : UInt64)
    (sid coordinatorId : String) :
    (SessionInfo.new now sid coordinatorId n.createAssignments).allAccepted = true ↔
      ∀ p ∈ n.peerList, p = n.id := by
  rw [← n.length_createAssignments_eq_one hX]
  have hiff : (SessionInfo.new now sid coordinatorId n.createAssignments).allAccepted = true ↔
      0 = usizeSub n.createAssignments.entries.length 1 := by
    simp [SessionInfo.allAccepted, SessionInfo.new]
  rw [hiff, usizeSub]
  split_ifs <;> omega

open LockedNode

/-- From a call of `assign_peer_indices` up to the next one, whatever messages, calls and task
steps come between: the session of the call is never reported complete without its orchestrator,
save while the event loop is about to install this, exactly if the call finds another node, or the
orchestrator is there already, and no orchestrator is installed for other assignments while the
session is complete. -/
theorem readiness_real_iff (hX : X.ParsesPeers) {u v w : LockedNode X} {now : UInt64}
    {ls : List (LockLabel X)} (hv : u.step (.act (.assignPeerIndices now)) = some v)
    (hlast : ∀ l ∈ ls, ∀ now', l ≠ .act (.assignPeerIndices now'))
    (hr : (lockMachine X).run v ls = some w) :
    (∀ pre t, pre <+: ls → (lockMachine X).run v pre = some t →
      ¬ t.Installing (t.node.getSessionStatus (some (u.node.newSessionId now))).assignments →
        t.Ready (u.node.newSessionId now)) ↔
      ((∃ p ∈ u.node.peerList, p ≠ u.node.id) ∨ u.InstalledFor u.node.createAssignments ∨
        u.Installing u.node.createAssignments) ∧
      (lockMachine X).Meets (LockedNode.InstallsOnly (u.node.newSessionId now)) v ls := by
  set sid := u.node.newSessionId now with hsid
  set A := u.node.createAssignments with hA
  obtain ⟨hnode, hloop⟩ : v.node = (u.node.assignPeerIndices now).1 ∧ v.loop = u.loop := by
    obtain ⟨r, ha, rfl⟩ := step_act hv
    obtain rfl := Option.some.inj ha
    exact ⟨rfl, rfl⟩
  have hsession : v.node.sessions.lookup sid =
      some (.new now sid (X.peerToString u.node.id) A) := by
    rw [hnode]
    exact AList.lookup_insert _
  have hinstalled : v.InstalledFor A ↔ u.InstalledFor A := by
    rw [InstalledFor, InstalledFor, hnode]
    rfl
  have hinstalling : v.Installing A ↔ u.Installing A := by
    rw [Installing, Installing, hnode, hloop]
    rfl
  have hall := Machine.run_forall_iff_meets (M := lockMachine X)
    (I := fun s => s.Follows sid)
    (K := fun s => ∃ session, s.node.sessions.lookup sid = some session)
    (G := LockedNode.InstallsOnly sid) (H := fun _ l => ∀ now', l ≠ .act (.assignPeerIndices now'))
    ?_ ?_ ⟨_, hsession⟩ (Machine.meets_of_forall_mem hlast v) hr
  · have hleft : (∀ pre t, pre <+: ls → (lockMachine X).run v pre = some t → t.Follows sid) ↔
        ∀ pre t, pre <+: ls → (lockMachine X).run v pre = some t →
          ¬ t.Installing (t.node.getSessionStatus (some sid)).assignments → t.Ready sid := by
      refine forall₂_congr fun pre t => forall₂_congr fun _ _ => ?_
      exact or_iff_not_imp_right
    have hright : v.Follows sid ↔ (∃ p ∈ u.node.peerList, p ≠ u.node.id) ∨ u.InstalledFor A ∨
        u.Installing A := by
      have hassignments : (SessionInfo.new now sid (X.peerToString u.node.id) A).assignments = A :=
        rfl
      rw [follows_iff hsession, u.node.allAccepted_new hX, hassignments, hinstalled, hinstalling,
        imp_iff_not_or, or_assoc]
      simp
    rw [← hleft, hall, hright]
  · rintro s l t ⟨session, hs⟩ hl hstep
    cases (step_session hs hstep hl).2 with
    | accept _ _ hsession' => exact ⟨_, hsession'⟩
    | install _ _ _ hsession' => exact ⟨_, hsession'⟩
    | keep _ hsession' => exact ⟨_, hsession'⟩
  · rintro s l t ⟨session, hs⟩ hl hfollows hstep
    exact follows_step_iff hs hfollows hstep hl

/-- A node without peers reports its session complete, and then has no orchestrator. -/
theorem lone_node_reported_ready : ∃ v : LockedNode .plain,
    (lockMachine .plain).init (.new "a") ∧
      (lockMachine .plain).run (.new "a") [.act (.assignPeerIndices 5)] = some v ∧
      v.loop.isNone = true ∧ (v.node.getSessionStatus (some "a-5")).allAccepted = true ∧
      v.node.mpcOrchestrator.isNone = true ∧
      (v.node.initiateAuxGen ⟨0⟩).result = .error .notInitialized :=
  ⟨_, ⟨"a", rfl⟩, rfl, rfl, by decide, rfl, rfl⟩

namespace AcceptedRun

/-- The acceptance of `b` is recorded, and the orchestrator installed. -/
def labels : List (LockLabel .plain) :=
  [.take (some "b") true 6 (.assignment (.acceptance "b" 1 "a-5")), .handle]

/-- The node `a` with the peer `b`. -/
def node : LockedNode .plain := { LockedNode.new "a" with node := (Node.new "a").onIdentify "b" }

end AcceptedRun

/-- With a peer that accepts, what is reported is installed. -/
theorem accepted_session_ready : ∃ v : LockedNode .plain,
    AcceptedRun.node.step (.act (.assignPeerIndices 5)) = some v ∧
      ∀ pre t, pre <+: AcceptedRun.labels → (lockMachine .plain).run v pre = some t →
        ¬ t.Installing (t.node.getSessionStatus (some "a-5")).assignments → t.Ready "a-5" := by
  have h : ∃ v w : LockedNode .plain, AcceptedRun.node.step (.act (.assignPeerIndices 5)) = some v ∧
      (lockMachine .plain).run v AcceptedRun.labels = some w ∧
      (lockMachine .plain).Meets (LockedNode.InstallsOnly "a-5") v AcceptedRun.labels := by
    refine ⟨_, _, rfl, rfl, .cons ?_ rfl (.cons ?_ rfl trivial)⟩
    · rintro A session ⟨⟩
    · rintro A session - hA hsession -
      cases hA
      cases hsession
      rfl
  obtain ⟨v, w, hv, hw, hmeets⟩ := h
  have hpeer : ∃ p ∈ AcceptedRun.node.node.peerList, p ≠ AcceptedRun.node.node.id :=
    ⟨"b", List.mem_singleton_self "b", (by decide : ("b" : String) ≠ "a")⟩
  have hlast : ∀ l ∈ AcceptedRun.labels, ∀ now', l ≠ .act (.assignPeerIndices now') := by
    rintro l hl now' rfl
    simp [AcceptedRun.labels] at hl
  exact ⟨v, hv, (readiness_real_iff Platform.plain_lawful.parsesPeers hv hlast hw).2
    ⟨.inl hpeer, hmeets⟩⟩

end P2pMpc
