import P2pMpc.AllAccepted
import P2pMpc.HandshakeInvariant
import P2pMpc.Initiator

/-!
# The current session and the installed one

A node notes in `current_session_id` the session it was assigned last: by its own call of
`assign_peer_indices`, or by a Request that lists it. The orchestrator it installs need not belong
to that session. A Request installs its own assignment whenever it arrives, however old the session
is, and an Acceptance that completes a session installs that session, current or not. Which
Acceptances do can be read off the steps of the run: a session is opened by a call or by the first
Request that assigns it, and is complete once its Acceptances have named one peer less than it has
nodes.
-/

namespace P2pMpc

open StateMachine

variable {X : Platform}

/-! ### The session assigned last -/

/-- The session that a step of the node `p` assigns to it. -/
def NodeLabel.assigns (p : X.PeerId) : NodeLabel X → Option String
  | .act (.assignPeerIndices now) => some (X.peerToString p ++ "-" ++ toString now.toNat)
  | .receive source _ _ (.assignment (.request _ assignments sessionId)) =>
      if source ≠ some p ∧ X.peerToString p ∈ assignments then some sessionId else none
  | _ => none

/-- The session that the last of the steps that assign one has assigned to the node `p`. -/
def lastAssigned (p : X.PeerId) (ls : List (NodeLabel X)) : Option String :=
  ls.foldl (fun last l => (l.assigns p).or last) none

theorem foldl_assigns (p : X.PeerId) (ls : List (NodeLabel X)) (c : Option String) :
    ls.foldl (fun last l => (l.assigns p).or last) c = (lastAssigned p ls).or c := by
  unfold lastAssigned
  induction ls generalizing c with
  | nil => rfl
  | cons l ls ih =>
    rw [List.foldl_cons, List.foldl_cons, ih, ih ((l.assigns p).or none), Option.or_none,
      Option.or_assoc]

theorem assigns_eq_none_of_lastAssigned {p : X.PeerId} {ls : List (NodeLabel X)}
    (h : lastAssigned p ls = none) : ∀ l ∈ ls, l.assigns p = none := by
  induction ls with
  | nil => simp
  | cons l ls ih =>
    have hcons : lastAssigned p (l :: ls) = (lastAssigned p ls).or (l.assigns p) := by
      rw [lastAssigned, List.foldl_cons, foldl_assigns, Option.or_none]
    rw [hcons, Option.or_eq_none_iff] at h
    intro l' hl'
    rcases List.mem_cons.1 hl' with rfl | hl'
    · exact h.2
    · exact ih h.1 l' hl'

theorem exists_of_lastAssigned {p : X.PeerId} {ls : List (NodeLabel X)} {sid : String}
    (h : lastAssigned p ls = some sid) : ∃ l ∈ ls, l.assigns p = some sid := by
  induction ls with
  | nil => cases h
  | cons l ls ih =>
    have hcons : lastAssigned p (l :: ls) = (lastAssigned p ls).or (l.assigns p) := by
      rw [lastAssigned, List.foldl_cons, foldl_assigns, Option.or_none]
    rw [hcons, Option.or_eq_some_iff] at h
    rcases h with h | ⟨-, h⟩
    · obtain ⟨l', hl', ha⟩ := ih h
      exact ⟨l', List.mem_cons_of_mem _ hl', ha⟩
    · exact ⟨l, List.mem_cons_self, h⟩

/-- Where only one session is assigned, it is the one assigned last. -/
theorem lastAssigned_of_unique {p : X.PeerId} {ls : List (NodeLabel X)} {sid : String}
    (h : ∃ l ∈ ls, l.assigns p = some sid)
    (honly : ∀ l ∈ ls, ∀ sid', l.assigns p = some sid' → sid' = sid) :
    lastAssigned p ls = some sid := by
  cases hlast : lastAssigned p ls with
  | none =>
    obtain ⟨l, hl, ha⟩ := h
    rw [assigns_eq_none_of_lastAssigned hlast l hl] at ha
    cases ha
  | some sid' =>
    obtain ⟨l, hl, ha⟩ := exists_of_lastAssigned hlast
    rw [honly l hl sid' ha]

/-- The session an Acceptance completes, if the step handles one. -/
def Node.completes (n : Node X) : NodeLabel X → Option String
  | .receive source _ _ (.assignment (.acceptance peerId _ sessionId)) =>
      match n.sessions.lookup sessionId with
      | none => none
      | some session =>
        if source ≠ some n.id ∧ (session.accept peerId).allAccepted = true then some sessionId
        else none
  | _ => none

namespace Node

variable {n n' : Node X} {l : NodeLabel X} {ls : List (NodeLabel X)}

theorem completes_eq_some {sid : String} : n.completes l = some sid ↔
    ∃ source published now peerId i session,
      l = .receive source published now (.assignment (.acceptance peerId i sid)) ∧
      n.sessions.lookup sid = some session ∧ source ≠ some n.id ∧
      (session.accept peerId).allAccepted = true := by
  constructor
  · intro h
    unfold completes at h
    split at h
    · next source published now peerId i sid' =>
      cases hs : n.sessions.lookup sid' with
      | none => simp [hs] at h
      | some session =>
        rw [hs] at h
        obtain ⟨⟨hsource, hall⟩, he⟩ := Option.ite_none_right_eq_some.1 h
        obtain rfl := Option.some.inj he
        exact ⟨source, published, now, peerId, i, session, rfl, hs, hsource, hall⟩
    · cases h
  · rintro ⟨source, published, now, peerId, i, session, rfl, hs, hsource, hall⟩
    simp [completes, hs, hsource, hall]

theorem handleAssignmentMessage_currentSessionId {source : Option X.PeerId}
    (hs : source ≠ some n.id) (published : Bool) (now : UInt64) (msg : AssignmentMessage) :
    (n.handleAssignmentMessage published now msg).1.currentSessionId =
      (NodeLabel.assigns n.id (.receive source published now (.assignment msg))).or
        n.currentSessionId := by
  cases msg with
  | request c A sid =>
    show _ = (if source ≠ some n.id ∧ X.peerToString n.id ∈ A then some sid else none).or _
    rcases n.handleRequest_cases published now c A sid with ⟨hmem, he⟩ | ⟨i, hi, hcase⟩
    · rw [he, if_neg fun hc => hmem hc.2]
      rfl
    · have hmem : X.peerToString n.id ∈ A := AList.lookup_isSome.1 (by simp [hi])
      rw [if_pos ⟨hs, hmem⟩]
      rcases hcase with ⟨-, he⟩ | ⟨-, -, he⟩ <;> rw [he] <;> rfl
  | acceptance p i sid =>
    rcases n.handleAcceptance_cases published now p i sid with
      ⟨-, he⟩ | ⟨session, -, ⟨-, he⟩ | ⟨-, he⟩⟩ <;> rw [he] <;> rfl

/-- A step makes the session current that it assigns, and no other step changes it. -/
theorem step_currentSessionId (h : n.step l = some n') :
    n'.currentSessionId = (l.assigns n.id).or n.currentSessionId := by
  rcases step_cases h with ⟨now, rfl, rfl⟩ | ⟨source, published, now, msg, rfl, hs, rfl⟩ |
      ⟨-, hsame, -, -⟩
  · rfl
  · exact handleAssignmentMessage_currentSessionId hs published now msg
  · cases l with
    | act a =>
      cases a with
      | assignPeerIndices now =>
        cases h
        rfl
      | _ => exact hsame
    | receive source published now g =>
      cases g with
      | assignment msg =>
        by_cases hs : source = some n.id
        · rw [hsame]
          cases msg <;> simp [NodeLabel.assigns, hs]
        · obtain rfl := Option.some.inj h
          rw [← handleAssignmentMessage_currentSessionId hs published now msg, onMessage,
            if_neg hs]
      | _ => exact hsame

theorem run_currentSessionId (h : (nodeMachine X).run n ls = some n') :
    n'.currentSessionId = (lastAssigned n.id ls).or n.currentSessionId := by
  rw [← foldl_assigns]
  induction ls generalizing n with
  | nil =>
    cases h
    rfl
  | cons l ls ih =>
    obtain ⟨m, hm, hn'⟩ := Machine.run_cons_eq_some.1 h
    rw [ih hn', step_currentSessionId hm, (step_slot hm).1, List.foldl_cons]

/-- In a node that has run from its start the current session is the one assigned last. -/
theorem run_lastAssigned (h₀ : (nodeMachine X).init n) (h : (nodeMachine X).run n ls = some n') :
    n'.currentSessionId = lastAssigned n.id ls := by
  obtain ⟨id, rfl⟩ := h₀
  rw [run_currentSessionId h]
  exact Option.or_none

/-- Of a session that it completes, an Acceptance installs the assignments. -/
theorem step_of_completes (h : n.step l = some n') {sid : String} (hc : n.completes l = some sid) :
    ∃ session, n.sessions.lookup sid = some session ∧
      n'.mpcOrchestrator = some ⟨.ofAssignments n.id session.assignments, []⟩ := by
  obtain ⟨source, published, now, peerId, i, session, rfl, hs, hsource, hall⟩ :=
    completes_eq_some.1 hc
  obtain rfl := Option.some.inj h
  refine ⟨session, hs, ?_⟩
  rw [onMessage, if_neg hsource]
  rcases n.handleAcceptance_cases published now peerId i sid with
    ⟨hnone, -⟩ | ⟨session', hs', ⟨hnot, -⟩ | ⟨-, he⟩⟩
  · rw [hs] at hnone
    cases hnone
  · obtain rfl := Option.some.inj (hs.symm.trans hs')
    rw [hall] at hnot
    cases hnot
  · obtain rfl := Option.some.inj (hs.symm.trans hs')
    rw [he]
    rfl

end Node

/-! ### The acceptances of a session, read off the steps -/

section Tally

open Ballots

/-- The step is a call of `assign_peer_indices`. -/
def NodeLabel.IsAssignment (l : NodeLabel X) : Prop := ∃ now, l = .act (.assignPeerIndices now)

/-- The assignments of the step: those of the message, or those the call creates. -/
def NodeLabel.assignments (n : Node X) : NodeLabel X → HashMap String ℕ
  | .act (.assignPeerIndices _) => n.createAssignments
  | .receive _ _ _ (.assignment (.request _ assignments _)) => assignments
  | _ => ∅

/-- The peer that an Acceptance of the session `sid` names when the node `p` handles it. -/
def NodeLabel.voter (p : X.PeerId) (sid : String) : NodeLabel X → Option String
  | .receive source _ _ (.assignment (.acceptance peerId _ sessionId)) =>
      if source ≠ some p ∧ sessionId = sid then some peerId else none
  | _ => none

/-- After the steps `pre` of the node `p`, the step `l` stores the session `sid` with no acceptance:
it is a call, which overwrites what is there, or the first step to assign the session. -/
def NodeLabel.Opens (p : X.PeerId) (sid : String) (pre : List (NodeLabel X)) (l : NodeLabel X) :
    Prop :=
  l.assigns p = some sid ∧ (l.IsAssignment ∨ ∀ l' ∈ pre, l'.assigns p ≠ some sid)

/-- None of the steps is a call that stores the session once more. -/
def NoReopening (p : X.PeerId) (sid : String) (ls : List (NodeLabel X)) : Prop :=
  ∀ l ∈ ls, l.IsAssignment → l.assigns p ≠ some sid

/-- A session that some step assigns has been opened, and not again since. -/
theorem exists_opens {p : X.PeerId} {sid : String} {ls : List (NodeLabel X)}
    (h : ∃ l ∈ ls, l.assigns p = some sid) :
    ∃ pre l mid, ls = pre ++ l :: mid ∧ l.Opens p sid pre ∧ NoReopening p sid mid := by
  induction ls using List.reverseRecOn with
  | nil => simp at h
  | append_singleton ls last ih =>
    by_cases hlast : last.assigns p = some sid ∧
        (last.IsAssignment ∨ ∀ l' ∈ ls, l'.assigns p ≠ some sid)
    · exact ⟨ls, last, [], rfl, hlast, by simp [NoReopening]⟩
    · -- the last step does not open the session, so an earlier one has assigned it
      have hearlier : ∃ l ∈ ls, l.assigns p = some sid := by
        obtain ⟨l, hl, ha⟩ := h
        rcases List.mem_append.1 hl with hl | hl
        · exact ⟨l, hl, ha⟩
        · obtain rfl := List.mem_singleton.1 hl
          by_contra hnone
          push Not at hnone
          exact hlast ⟨ha, .inr hnone⟩
      obtain ⟨pre, l, mid, rfl, hopens, hmid⟩ := ih hearlier
      refine ⟨pre, l, mid ++ [last], by simp, hopens, ?_⟩
      intro l' hl' hcall ha
      rcases List.mem_append.1 hl' with hl' | hl'
      · exact hmid l' hl' hcall ha
      · obtain rfl := List.mem_singleton.1 hl'
        exact hlast ⟨ha, .inl hcall⟩

/-- The node stores the session with `total` nodes and the acceptances of the peers in `V`. -/
def Node.Tallies (n : Node X) (sid : String) (total : ℕ) (V : Finset String) : Prop :=
  ∃ s, n.sessions.lookup sid = some s ∧ s.totalNodes = total ∧
    s.acceptances.keys.toFinset = V ∧ ∀ e ∈ s.acceptances.entries, e.2 = true

namespace Node

variable {n n' : Node X} {l : NodeLabel X} {ls : List (NodeLabel X)} {sid : String} {total : ℕ}
  {V : Finset String}

theorem tallies_new {now : UInt64} {c : String} {A : HashMap String ℕ}
    (h : n.sessions.lookup sid = some (.new now sid c A)) : n.Tallies sid A.entries.length ∅ :=
  ⟨_, h, rfl, rfl, by simp [SessionInfo.new]⟩

/-- What a step does to a session: it opens it, or counts the Acceptance it handles. -/
def OpensOrCounts (n : Node X) (l : NodeLabel X) (sid : String) (n' : Node X) : Prop :=
  (l.assigns n.id = some sid ∧ (l.IsAssignment ∨ sid ∉ n.sessions) ∧
    X.peerToString n.id ∈ l.assignments n ∧
    ∃ now c, n'.sessions.lookup sid = some (.new now sid c (l.assignments n))) ∨
  ((l.IsAssignment → l.assigns n.id ≠ some sid) ∧
    (l.assigns n.id = some sid → sid ∈ n.sessions) ∧
    n'.sessions.lookup sid =
      (n.sessions.lookup sid).map fun s => (l.voter n.id sid).elim s s.accept)

/-- A step that assigns nothing and handles no Acceptance leaves the sessions alone. -/
theorem opensOrCounts_of_same (ha : l.assigns n.id = none) (hv : l.voter n.id sid = none)
    (hs : n'.sessions = n.sessions) : n.OpensOrCounts l sid n' := by
  refine .inr ⟨fun _ => by simp [ha], fun he => by simp [ha] at he, ?_⟩
  simp [hv, hs]

theorem opensOrCounts_assign (n : Node X) (now : UInt64) (sid : String) :
    n.OpensOrCounts (.act (.assignPeerIndices now)) sid (n.assignPeerIndices now).1 := by
  by_cases hsid : sid = X.peerToString n.id ++ "-" ++ toString now.toNat
  · subst hsid
    refine .inl ⟨rfl, .inl ⟨now, rfl⟩, mem_createAssignments.2 List.mem_cons_self, now,
      X.peerToString n.id, ?_⟩
    exact AList.lookup_insert _
  · refine .inr ⟨fun _ he => hsid (Option.some.inj he).symm,
      fun he => absurd (Option.some.inj he).symm hsid, ?_⟩
    simp only [NodeLabel.voter, Option.elim_none, Option.map_id']
    exact AList.lookup_insert_ne hsid

theorem opensOrCounts_handle {source : Option X.PeerId} (hsource : source ≠ some n.id)
    (published : Bool) (now : UInt64) (msg : AssignmentMessage) (sid : String) :
    n.OpensOrCounts (.receive source published now (.assignment msg)) sid
      (n.handleAssignmentMessage published now msg).1 := by
  cases msg with
  | request c A sid' =>
    rcases n.handleRequest_cases published now c A sid' with ⟨hmem, he⟩ | ⟨i, hi, hcase⟩
    · exact opensOrCounts_of_same (by simp [NodeLabel.assigns, hmem]) rfl (by rw [he])
    · have hmem : X.peerToString n.id ∈ A := AList.lookup_isSome.1 (by simp [hi])
      have hsessions : (n.handleAssignmentMessage published now (.request c A sid')).1.sessions =
          (n.adopt now c A sid').sessions := by
        rcases hcase with ⟨-, he⟩ | ⟨-, -, he⟩ <;> rw [he]
        rfl
      have hassigns : NodeLabel.assigns n.id
          (.receive source published now (.assignment (.request c A sid'))) = some sid' :=
        if_pos ⟨hsource, hmem⟩
      rw [OpensOrCounts, hsessions, hassigns]
      simp only [NodeLabel.voter, Option.elim_none, Option.map_id', adopt]
      by_cases hnew : sid' ∈ n.sessions
      · refine .inr ⟨by rintro ⟨_, ⟨⟩⟩, fun he => Option.some.inj he ▸ hnew, ?_⟩
        rw [if_pos hnew]
      · rw [if_neg hnew]
        by_cases hsid : sid = sid'
        · subst hsid
          exact .inl ⟨rfl, .inr hnew, hmem, now, c, AList.lookup_insert _⟩
        · exact .inr ⟨by rintro ⟨_, ⟨⟩⟩, fun he => absurd (Option.some.inj he).symm hsid,
            AList.lookup_insert_ne hsid⟩
  | acceptance x i sid' =>
    refine .inr ⟨by rintro ⟨_, ⟨⟩⟩, by rintro ⟨⟩, ?_⟩
    rw [lookup_sessions_acceptance]
    by_cases hsid : sid' = sid
    · simp [NodeLabel.voter, hsource, hsid]
    · simp [NodeLabel.voter, hsid]

theorem step_session (h : n.step l = some n') (sid : String) : n.OpensOrCounts l sid n' := by
  have hsessions : (∀ now, l ≠ .act (.assignPeerIndices now)) →
      (∀ source published now msg, l ≠ .receive source published now (.assignment msg)) →
        n'.sessions = n.sessions := by
    intro hcall hmsg
    rcases step_cases h with ⟨now, rfl, -⟩ | ⟨source, published, now, msg, rfl, -⟩ | ⟨hsame, -⟩
    · exact absurd rfl (hcall now)
    · exact absurd rfl (hmsg source published now msg)
    · exact hsame
  cases l with
  | act a =>
    cases a with
    | assignPeerIndices now =>
      obtain rfl := Option.some.inj h
      exact n.opensOrCounts_assign now sid
    | _ => exact opensOrCounts_of_same rfl rfl (hsessions (by rintro _ ⟨⟩) (by rintro _ _ _ _ ⟨⟩))
  | receive source published now g =>
    cases g with
    | assignment msg =>
      obtain rfl := Option.some.inj h
      by_cases hsource : source = some n.id
      · refine opensOrCounts_of_same ?_ ?_ (by simp [onMessage, hsource])
        · cases msg <;> simp [NodeLabel.assigns, hsource]
        · cases msg <;> simp [NodeLabel.voter, hsource]
      · simp only [onMessage, if_neg hsource]
        exact opensOrCounts_handle hsource published now msg sid
    | _ => exact opensOrCounts_of_same rfl rfl (hsessions (by rintro _ ⟨⟩) (by rintro _ _ _ _ ⟨⟩))

/-- After a step, a session is stored if it was before or if the step assigns it. -/
theorem step_stored_iff (h : n.step l = some n') :
    sid ∈ n'.sessions ↔ sid ∈ n.sessions ∨ l.assigns n.id = some sid := by
  simp only [← AList.lookup_isSome]
  rcases step_session h sid with ⟨ha, -, -, now, c, hs⟩ | ⟨-, hstored, hs⟩
  · simp [hs, ha]
  · rw [hs, Option.isSome_map]
    refine ⟨.inl, ?_⟩
    rintro (hs | ha)
    · exact hs
    · exact AList.lookup_isSome.2 (hstored ha)

theorem run_stored_iff (h : (nodeMachine X).run n ls = some n') :
    sid ∈ n'.sessions ↔ sid ∈ n.sessions ∨ ∃ l ∈ ls, l.assigns n.id = some sid := by
  induction ls generalizing n with
  | nil =>
    cases h
    simp
  | cons l ls ih =>
    obtain ⟨m, hm, hn'⟩ := Machine.run_cons_eq_some.1 h
    rw [ih hn', step_stored_iff hm, (step_slot hm).1]
    simp [or_assoc]

/-- The step that opens a session stores it with the nodes it assigns and no acceptances. -/
theorem tallies_of_opens (h : n.step l = some n') (ha : l.assigns n.id = some sid)
    (hnew : l.IsAssignment ∨ sid ∉ n.sessions) :
    n'.Tallies sid (l.assignments n).entries.length ∅ ∧ 1 ≤ (l.assignments n).entries.length := by
  rcases step_session h sid with ⟨-, -, hmem, now, c, hs⟩ | ⟨hcall, hstored, -⟩
  · obtain ⟨e, he, -⟩ := List.mem_map.1 (AList.mem_keys.1 hmem)
    exact ⟨tallies_new hs, List.length_pos_of_mem he⟩
  · rcases hnew with hnew | hnew
    · exact absurd ha (hcall hnew)
    · exact absurd (hstored ha) hnew

/-- A step that does not open the session again counts the Acceptance it handles. -/
theorem Tallies.step (ht : n.Tallies sid total V) (h : n.step l = some n')
    (hl : l.IsAssignment → l.assigns n.id ≠ some sid) :
    n'.Tallies sid total (V ∪ named (NodeLabel.voter n.id sid) [l]) := by
  obtain ⟨s, hs, htotal, hV, hall⟩ := ht
  rcases step_session h sid with ⟨ha, hnew, -⟩ | ⟨-, -, hs'⟩
  · rcases hnew with hnew | hnew
    · exact absurd ha (hl hnew)
    · exact absurd (AList.lookup_isSome.1 (by simp [hs])) hnew
  · rw [hs, Option.map_some] at hs'
    cases hv : l.voter n.id sid with
    | none =>
      refine ⟨s, by simpa [hv] using hs', htotal, ?_, hall⟩
      simp [named, hv, hV]
    | some x =>
      refine ⟨s.accept x, by simpa [hv] using hs', htotal, ?_, SessionInfo.all_accept hall x⟩
      rw [SessionInfo.keys_accept, hV]
      simp [named, hv]

theorem Tallies.run (ht : n.Tallies sid total V) (h : (nodeMachine X).run n ls = some n')
    (hls : NoReopening n.id sid ls) :
    n'.Tallies sid total (V ∪ named (NodeLabel.voter n.id sid) ls) := by
  induction ls generalizing n V with
  | nil =>
    cases h
    simpa [named] using ht
  | cons l ls ih =>
    obtain ⟨m, hm, hn'⟩ := Machine.run_cons_eq_some.1 h
    have hid := (step_slot hm).1
    have hrest := ih (ht.step hm (hls l List.mem_cons_self)) hn'
      (by rw [hid]; exact fun l' hl' => hls l' (List.mem_cons_of_mem _ hl'))
    rw [hid, Finset.union_assoc, ← named_append] at hrest
    exact hrest

/-- An Acceptance of a tallied session installs an orchestrator exactly if, with the peer it names,
one peer less has accepted than nodes are assigned. -/
theorem Tallies.reinstalled_iff (ht : n.Tallies sid total V) (htotal : 1 ≤ total)
    {source : Option X.PeerId} (hsource : source ≠ some n.id) (published : Bool) (now : UInt64)
    (x : String) (i : ℕ) :
    n.Reinstalled (n.onMessage source published now
        (.assignment (.acceptance x i sid))).node ↔ (V ∪ {x}).card + 1 = total := by
  obtain ⟨s, hs, rfl, hV, hall⟩ := ht
  rw [onMessage, if_neg hsource, reinstalled_iff_installs]
  simp only [Installs, hs, Option.some.injEq, exists_eq_left']
  rw [SessionInfo.allAccepted_iff (SessionInfo.all_accept hall x), SessionInfo.keys_accept, hV]
  show _ = usizeSub s.totalNodes 1 ↔ _
  rw [usizeSub, if_pos htotal]
  omega

/-- In a run that opens a session and does not open it again, the session holds the peers that the
Acceptances since name. -/
theorem tallies_of_run {m₀ u : Node X} {pre mid : List (NodeLabel X)}
    (h₀ : (nodeMachine X).init m₀) (hu : (nodeMachine X).run m₀ pre = some u)
    (hn : (nodeMachine X).run m₀ (pre ++ l :: mid) = some n) (hl : l.Opens m₀.id sid pre)
    (hmid : NoReopening m₀.id sid mid) :
    n.Tallies sid (l.assignments u).entries.length (named (NodeLabel.voter m₀.id sid) mid) ∧
      1 ≤ (l.assignments u).entries.length := by
  obtain ⟨u', hu', hrest⟩ := Machine.run_append_eq_some.1 hn
  obtain rfl := Option.some.inj (hu.symm.trans hu')
  obtain ⟨v, hv, hn'⟩ := Machine.run_cons_eq_some.1 hrest
  have hid : u.id = m₀.id := run_id hu
  obtain ⟨hassigns, hnew⟩ := hl
  rw [← hid] at hassigns
  have hunstored : l.IsAssignment ∨ sid ∉ u.sessions := by
    refine hnew.imp_right fun hnone hmem => ?_
    rcases (run_stored_iff hu).1 hmem with hmem | ⟨l', hl', ha⟩
    · obtain ⟨p, rfl⟩ := h₀
      exact AList.notMem_empty sid hmem
    · exact hnone l' hl' ha
  obtain ⟨hempty, hpos⟩ := tallies_of_opens hv hassigns hunstored
  have hvid : v.id = m₀.id := (step_slot hv).1.trans hid
  have hall := hempty.run hn' (by rw [hvid]; exact hmid)
  rw [hvid, Finset.empty_union] at hall
  exact ⟨hall, hpos⟩

end Node

end Tally

/-! ### Acceptances of a session that is no longer current -/

theorem NodeLabel.voter_eq_some {p : X.PeerId} {sid x : String} {l : NodeLabel X} :
    l.voter p sid = some x ↔ ∃ source published now i,
      l = .receive source published now (.assignment (.acceptance x i sid)) ∧ source ≠ some p := by
  constructor
  · intro h
    unfold voter at h
    split at h
    · next source published now x' i sid' =>
      obtain ⟨⟨hsource, rfl⟩, he⟩ := Option.ite_none_right_eq_some.1 h
      obtain rfl := Option.some.inj he
      exact ⟨source, published, now, i, rfl, hsource⟩
    · cases h
  · rintro ⟨source, published, now, i, rfl, hsource⟩
    exact if_pos ⟨hsource, rfl⟩

/-- An Acceptance of a session that was opened in the run installs an orchestrator exactly if it
makes up the number of its nodes. -/
theorem Node.reinstalled_iff_number {m₀ u n : Node X} (h₀ : (nodeMachine X).init m₀)
    {pre mid : List (NodeLabel X)} {l : NodeLabel X} {sid x : String} {source : Option X.PeerId}
    {published : Bool} {now : UInt64} {i : ℕ} (hu : (nodeMachine X).run m₀ pre = some u)
    (hn : (nodeMachine X).run m₀ (pre ++ l :: mid) = some n) (hl : l.Opens m₀.id sid pre)
    (hmid : NoReopening m₀.id sid mid) (hsource : source ≠ some m₀.id) :
    n.Reinstalled (n.onMessage source published now (.assignment (.acceptance x i sid))).node ↔
      (Ballots.named (NodeLabel.voter m₀.id sid)
        (mid ++ [.receive source published now (.assignment (.acceptance x i sid))])).card + 1 =
        (l.assignments u).entries.length := by
  obtain ⟨ht, hpos⟩ := Node.tallies_of_run h₀ hu hn hl hmid
  rw [ht.reinstalled_iff hpos (by rw [Node.run_id hn]; exact hsource), Ballots.named_append]
  have hlast : Ballots.named (NodeLabel.voter m₀.id sid)
      [.receive source published now (.assignment (.acceptance x i sid))] = {x} := by
    simp [Ballots.named, NodeLabel.voter, hsource]
  rw [hlast]

/-- If the step handles an Acceptance and thereby installs an orchestrator, then its session is the
current one and the assignments of that session are installed. -/
def Node.InstallsCurrent (n : Node X) (l : NodeLabel X) (n' : Node X) : Prop :=
  ∀ source published now x i sid,
    l = .receive source published now (.assignment (.acceptance x i sid)) → n.Reinstalled n' →
      n.currentSessionId = some sid ∧ ∃ session, n.sessions.lookup sid = some session ∧
        n'.mpcOrchestrator = some ⟨.ofAssignments n.id session.assignments, []⟩

/-- In the steps `ls` of the node, no Acceptance of a session other than the one assigned last is
counted as the last one that the session needs: the peers that its Acceptances have named since the
session was opened are not one less than the nodes it assigns. -/
def NoLateCompletion (m₀ : Node X) (ls : List (NodeLabel X)) : Prop :=
  ∀ pre l mid a post u sid x, ls = pre ++ l :: (mid ++ a :: post) →
    (nodeMachine X).run m₀ pre = some u → l.Opens m₀.id sid pre → NoReopening m₀.id sid mid →
      a.voter m₀.id sid = some x → lastAssigned m₀.id (pre ++ l :: mid) ≠ some sid →
        (Ballots.named (NodeLabel.voter m₀.id sid) (mid ++ [a])).card + 1 ≠
          (l.assignments u).entries.length

/-- In every run of a node: all Acceptances that install an orchestrator install that of the current
session exactly if no Acceptance of a session that is not the one assigned last makes up the number
of its nodes. -/
theorem acceptances_install_current_iff {m₀ m : Node X} {ls : List (NodeLabel X)}
    (h₀ : (nodeMachine X).init m₀) (hr : (nodeMachine X).run m₀ ls = some m) :
    (∀ pre a post n n', ls = pre ++ a :: post → (nodeMachine X).run m₀ pre = some n →
      n.step a = some n' → n.InstallsCurrent a n') ↔ NoLateCompletion m₀ ls := by
  constructor
  · intro h pre l mid a post u sid x hls hu hl hmid ha hlast heq
    obtain ⟨source, published, now, i, rfl, hsource⟩ := NodeLabel.voter_eq_some.1 ha
    have hsplit : ls = (pre ++ l :: mid) ++
        .receive source published now (.assignment (.acceptance x i sid)) :: post := by
      rw [hls, List.append_assoc, List.cons_append]
    rw [hsplit] at hr
    obtain ⟨n, hn, -⟩ := Machine.run_append_eq_some.1 hr
    have hre := (Node.reinstalled_iff_number h₀ hu hn hl hmid hsource).2 heq
    obtain ⟨hcurrent, -⟩ := h _ _ _ n _ hsplit hn rfl source published now x i sid rfl hre
    rw [Node.run_lastAssigned h₀ hn] at hcurrent
    exact hlast hcurrent
  · rintro h pre a post n n' hls hn hstep source published now x i sid rfl hre
    obtain rfl := Option.some.inj hstep
    have hid : n.id = m₀.id := Node.run_id hn
    have hsource : source ≠ some n.id := by
      intro hs
      rw [Node.onMessage, if_pos hs] at hre
      rcases hre with hre | hre <;> exact hre rfl
    obtain ⟨session, hs, hall⟩ : ∃ s, n.sessions.lookup sid = some s ∧
        (s.accept x).allAccepted = true := by
      rw [Node.onMessage, if_neg hsource] at hre
      exact Node.reinstalled_iff_installs.1 hre
    have hc : n.completes (.receive source published now (.assignment (.acceptance x i sid))) =
        some sid :=
      Node.completes_eq_some.2 ⟨source, published, now, x, i, session, rfl, hs, hsource, hall⟩
    refine ⟨?_, Node.step_of_completes rfl hc⟩
    -- the session is stored, so a step before has opened it
    have hassigned : ∃ l ∈ pre, l.assigns m₀.id = some sid := by
      have hstored : sid ∈ n.sessions := AList.lookup_isSome.1 (by simp [hs])
      rcases (Node.run_stored_iff hn).1 hstored with hmem | hl
      · obtain ⟨p, rfl⟩ := h₀
        exact absurd hmem (AList.notMem_empty sid)
      · exact hl
    obtain ⟨before, l, mid, rfl, hopens, hmid⟩ := exists_opens hassigned
    obtain ⟨u, hu, -⟩ := Machine.run_append_eq_some.1 hn
    rw [hid] at hsource
    have hnum := (Node.reinstalled_iff_number h₀ hu hn hopens hmid hsource).1 hre
    rw [Node.run_lastAssigned h₀ hn]
    by_contra hlast
    refine h before l mid _ post u sid x ?_ hu hopens hmid
      (NodeLabel.voter_eq_some.2 ⟨source, published, now, i, rfl, hsource⟩) hlast hnum
    rw [hls, List.append_assoc, List.cons_append]

namespace SupersededRun

/-- The node `a` assigns the indices 1 and 2 to its peers `b` and `c`. -/
def first : List (NodeLabel .plain) :=
  [.act (.identify "b"), .act (.identify "c"), .act (.assignPeerIndices 5)]

/-- An Acceptance of the peer `p`. -/
def accepts (p : String) (i : ℕ) (sid : String) : NodeLabel .plain :=
  .receive (some p) true 7 (.assignment (.acceptance p i sid))

/-- Both accept. -/
def labels : List (NodeLabel .plain) := first ++ [accepts "b" 1 "a-5", accepts "c" 2 "a-5"]

/-- Before the Acceptances of the first session arrive, `b` reconnects, `a` assigns once more, and
both accept the new session. -/
def lateLabels : List (NodeLabel .plain) :=
  first ++ [.act (.connectionClosed "b"), .act (.identify "b"), .act (.assignPeerIndices 6),
    accepts "b" 2 "a-6", accepts "c" 1 "a-6", accepts "b" 1 "a-5"]

end SupersededRun

/-- A late Acceptance of a session replaces the orchestrator of the session that has superseded it:
the orchestrator of the current session has `c` at the index 1, the new one has `b` there. -/
theorem late_acceptance_replaces : ∃ n n' : Node .plain, ∃ inst inst' : Instance .plain,
    (nodeMachine .plain).run (.new "a") SupersededRun.lateLabels = some n ∧
      n.step (SupersededRun.accepts "c" 2 "a-5") = some n' ∧
      n'.currentSessionId = some "a-6" ∧
      n.mpcOrchestrator = some inst ∧
      (inst.orch.partyAssignments : HashMap Platform.plain.PeerId PartyIndex).lookup "c" = some 1 ∧
      n'.mpcOrchestrator = some inst' ∧
      (inst'.orch.partyAssignments : HashMap Platform.plain.PeerId PartyIndex).lookup "b" = some 1 ∧
      ¬ n.InstallsCurrent (SupersededRun.accepts "c" 2 "a-5") n' := by
  refine ⟨_, _, _, _, rfl, rfl, rfl, rfl, rfl, rfl, rfl, fun h => ?_⟩
  obtain ⟨hcurrent, -⟩ := h (some "c") true 7 "c" 2 "a-5" rfl
    (.inr fun he => absurd (congrArg List.length he) (by decide))
  exact absurd (Option.some.inj hcurrent) (by decide)

/-- The last Acceptance of the only session installs it. -/
theorem only_session_installed : ∃ n n' : Node .plain,
    (nodeMachine .plain).run (.new "a") (SupersededRun.labels.take 4) = some n ∧
      n.step (SupersededRun.accepts "c" 2 "a-5") = some n' ∧
      n.Reinstalled n' ∧ n.InstallsCurrent (SupersededRun.accepts "c" 2 "a-5") n' := by
  have honly : ∀ l ∈ SupersededRun.labels,
      (∀ sid, l.assigns (X := .plain) "a" = some sid → sid = "a-5") ∧
      ∀ sid x, l.voter (X := .plain) "a" sid = some x → sid = "a-5" := by
    simp [SupersededRun.labels, SupersededRun.first, SupersededRun.accepts, NodeLabel.assigns,
      NodeLabel.voter]
    rfl
  have hlate : NoLateCompletion (X := .plain) (.new "a") SupersededRun.labels := by
    rintro pre l mid a post u sid x hls - hl - ha hlast
    have hmem : ∀ l' ∈ pre ++ l :: mid, l' ∈ SupersededRun.labels := by
      intro l' hl'
      rw [hls, ← List.cons_append, ← List.append_assoc]
      exact List.mem_append_left _ hl'
    obtain rfl := (honly a (by simp [hls])).2 sid x ha
    refine absurd ?_ hlast
    exact lastAssigned_of_unique ⟨l, by simp, hl.1⟩ fun l' hl' => (honly l' (hmem l' hl')).1
  have hrun : ∃ m, (nodeMachine .plain).run (.new "a") SupersededRun.labels = some m := ⟨_, rfl⟩
  obtain ⟨m, hm⟩ := hrun
  have hinstalls := (acceptances_install_current_iff (X := .plain) ⟨"a", rfl⟩ hm).2 hlate
  exact ⟨_, _, rfl, rfl, .inl (by rintro ⟨⟩),
    hinstalls (SupersededRun.labels.take 4) _ [] _ _ rfl rfl rfl⟩

end P2pMpc
