import P2pMpc.Readiness

/-!
# The arithmetic of sessions

`all_accepted`, the progress an Acceptance logs and the message of `get_session_status` subtract 1
from `total_nodes` without looking. A Request may carry an empty assignment, whose session would
have no nodes, but a session is only ever stored for an assignment that lists the node itself, and
an Acceptance only ever records `true`.
-/

namespace P2pMpc

open StateMachine

variable {X : Platform}

/-- A subtraction of 1 that does not wrap. -/
theorem usizeSub_one_add_one {a : ℕ} (h : 1 ≤ a) : usizeSub a 1 + 1 = a := by
  rw [usizeSub, if_pos h]
  omega

namespace SessionInfo

variable {s : SessionInfo}

/-- The number of nodes is that of the assignment, which lists one, and no acceptance is `false`. -/
structure Sound (s : SessionInfo) : Prop where
  counted : s.totalNodes = s.assignments.entries.length
  listed : 1 ≤ s.totalNodes
  accepted : ∀ e ∈ s.acceptances.entries, e.2 = true

theorem Sound.new {A : HashMap String ℕ} {k : String} (hk : k ∈ A) (now : UInt64)
    (sid c : String) : (SessionInfo.new now sid c A).Sound where
  counted := rfl
  listed := by
    obtain ⟨e, he, -⟩ := List.mem_map.1 (AList.mem_keys.1 hk)
    exact List.length_pos_of_mem he
  accepted := by
    intro e he
    cases he

theorem Sound.accept (h : s.Sound) (p : String) : (s.accept p).Sound where
  counted := h.counted
  listed := h.listed
  accepted := all_accept h.accepted p

theorem Sound.acceptanceCount (h : s.Sound) :
    s.acceptanceCount = s.acceptances.entries.length :=
  List.countP_eq_length.2 h.accepted

end SessionInfo

namespace Node

variable {n n' : Node X} {l : NodeLabel X} {sid : String} {σ : SessionInfo}

/-! ### The sessions that are stored -/

/-- A session that is stored after an assignment message was there before, apart from an acceptance
it may have counted, or is new and its assignment lists the node. -/
theorem of_lookup_handleAssignmentMessage {published : Bool} {now : UInt64}
    {msg : AssignmentMessage}
    (h : (n.handleAssignmentMessage published now msg).1.sessions.lookup sid = some σ) :
    (∃ σ₀, n.sessions.lookup sid = some σ₀ ∧ (σ = σ₀ ∨ ∃ p, σ = σ₀.accept p)) ∨
      ∃ now c A, X.peerToString n.id ∈ A ∧ σ = .new now sid c A := by
  cases msg with
  | request c A sid' =>
    rcases n.handleRequest_cases published now c A sid' with
      ⟨-, he⟩ | ⟨i, hi, hadopted⟩
    · rw [he] at h
      exact .inl ⟨σ, h, .inl rfl⟩
    · have hlisted : X.peerToString n.id ∈ A := AList.lookup_isSome.1 (by simp [hi])
      -- an installation leaves the sessions alone
      have hlookup : (n.adopt now c A sid').sessions.lookup sid = some σ := by
        rcases hadopted with ⟨-, he⟩ | ⟨-, -, he⟩ <;> rw [he] at h <;> exact h
      rcases of_lookup_adopt hlookup with ⟨rfl, rfl⟩ | hσ
      · exact .inr ⟨now, c, A, hlisted, rfl⟩
      · exact .inl ⟨σ, hσ, .inl rfl⟩
  | acceptance p i sid' =>
    rw [lookup_sessions_acceptance] at h
    obtain ⟨σ₀, hσ₀, rfl⟩ := Option.map_eq_some_iff.1 h
    refine .inl ⟨σ₀, hσ₀, ?_⟩
    split_ifs
    · exact .inr ⟨p, rfl⟩
    · exact .inl rfl

theorem of_lookup_step (h : n.step l = some n') (hσ : n'.sessions.lookup sid = some σ) :
    (∃ σ₀, n.sessions.lookup sid = some σ₀ ∧ (σ = σ₀ ∨ ∃ p, σ = σ₀.accept p)) ∨
      ∃ now c A, X.peerToString n.id ∈ A ∧ σ = .new now sid c A := by
  rcases step_cases h with ⟨now, -, rfl⟩ | ⟨_, published, now, msg, -, -, rfl⟩ | ⟨hs, -⟩
  · rcases of_lookup_record hσ with ⟨rfl, rfl⟩ | hσ
    · refine .inr ⟨now, _, _, ?_, rfl⟩
      exact mem_createAssignments.2 (List.mem_map_of_mem List.mem_cons_self)
    · exact .inl ⟨σ, hσ, .inl rfl⟩
  · exact of_lookup_handleAssignmentMessage hσ
  · rw [hs] at hσ
    exact .inl ⟨σ, hσ, .inl rfl⟩

/-- What holds of the new session of an assignment that lists somebody, and is kept by counting an
acceptance, holds of every session that is ever stored. -/
theorem stored_induct {P : SessionInfo → Prop}
    (hnew : ∀ now sid c (A : HashMap String ℕ) k, k ∈ A → P (.new now sid c A))
    (haccept : ∀ σ p, P σ → P (σ.accept p)) (h : (nodeMachine X).Reachable n)
    (hσ : n.sessions.lookup sid = some σ) : P σ := by
  have hall : ∀ sid σ, n.sessions.lookup sid = some σ → P σ := by
    apply h.induct (I := fun n => ∀ sid σ, n.sessions.lookup sid = some σ → P σ)
    · rintro _ ⟨id, rfl⟩ sid σ hσ
      simp [Node.new] at hσ
    · intro n l n' hn hl sid σ hσ
      rcases of_lookup_step hl hσ with ⟨σ₀, hσ₀, rfl | ⟨p, rfl⟩⟩ | ⟨now, c, A, hA, rfl⟩
      · exact hn sid σ hσ₀
      · exact haccept σ₀ p (hn sid σ₀ hσ₀)
      · exact hnew now sid c A _ hA
  exact hall sid σ hσ

theorem stored_sound (h : (nodeMachine X).Reachable n) (hσ : n.sessions.lookup sid = some σ) :
    σ.Sound :=
  stored_induct (fun now sid c _ _ hk => .new hk now sid c) (fun _ p hs => hs.accept p) h hσ

/-! ### The subtractions -/

/-- The values from which the handling of an Acceptance subtracts 1: `total_nodes` of the session
that has counted it, for the progress it logs and in `all_accepted`. -/
def acceptanceOperands (n : Node X) (peerId sessionId : String) : List ℕ :=
  match n.sessions.lookup sessionId with
  | none => []
  | some session =>
    let session := session.accept peerId
    [session.totalNodes, session.totalNodes]

/-- The values from which `get_session_status` subtracts 1: in `all_accepted`, and for the message
of a session that is not complete. -/
def statusOperands (n : Node X) (sessionId : Option String) : List ℕ :=
  match sessionId <|> n.currentSessionId with
  | none => []
  | some targetSessionId =>
    match n.sessions.lookup targetSessionId with
    | none => []
    | some session =>
      session.totalNodes :: if session.allAccepted then [] else [session.totalNodes]

theorem mem_acceptanceOperands {peerId : String} {x : ℕ} (h : x ∈ n.acceptanceOperands peerId sid) :
    ∃ σ, n.sessions.lookup sid = some σ ∧ x = σ.totalNodes := by
  unfold acceptanceOperands at h
  cases hσ : n.sessions.lookup sid with
  | none => simp [hσ] at h
  | some σ =>
    refine ⟨σ, rfl, ?_⟩
    simpa [hσ, SessionInfo.accept] using h

theorem mem_statusOperands {sessionId : Option String} {x : ℕ}
    (h : x ∈ n.statusOperands sessionId) :
    ∃ sid σ, n.sessions.lookup sid = some σ ∧ x = σ.totalNodes := by
  unfold statusOperands at h
  split at h
  · cases h
  · next sid _ =>
    cases hσ : n.sessions.lookup sid with
    | none => simp [hσ] at h
    | some σ =>
      refine ⟨sid, σ, hσ, ?_⟩
      simp only [hσ, List.mem_cons] at h
      split_ifs at h <;> simpa using h

end Node

/-- In every reachable node each stored session has as many nodes as its assignment, at least one,
and only acceptances that are true, all of which `acceptance_count` counts. So no subtraction from
`total_nodes` goes below zero, neither for an Acceptance nor for a call of `get_session_status`. -/
theorem session_arithmetic {n : Node X} (h : (nodeMachine X).Reachable n) :
    (∀ sid σ, n.sessions.lookup sid = some σ →
      σ.totalNodes = σ.assignments.entries.length ∧ 1 ≤ σ.totalNodes ∧
        (∀ e ∈ σ.acceptances.entries, e.2 = true) ∧
        σ.acceptanceCount = σ.acceptances.entries.length) ∧
    (∀ peerId sid, ∀ x ∈ n.acceptanceOperands peerId sid, usizeSub x 1 + 1 = x) ∧
    ∀ sessionId, ∀ x ∈ n.statusOperands sessionId, usizeSub x 1 + 1 = x := by
  refine ⟨fun sid σ hσ => ?_, fun peerId sid x hx => ?_, fun sessionId x hx => ?_⟩
  · have hsound := Node.stored_sound h hσ
    exact ⟨hsound.counted, hsound.listed, hsound.accepted, hsound.acceptanceCount⟩
  · obtain ⟨σ, hσ, rfl⟩ := Node.mem_acceptanceOperands hx
    exact usizeSub_one_add_one (Node.stored_sound h hσ).listed
  · obtain ⟨sid, σ, hσ, rfl⟩ := Node.mem_statusOperands hx
    exact usizeSub_one_add_one (Node.stored_sound h hσ).listed

/-- A Request with an empty assignment leaves nothing behind; the session of the call after it has
counted the acceptance of a stranger. -/
theorem session_arithmetic_stranger : ∃ n : Node .plain,
    (nodeMachine .plain).run (.new "a")
      [.receive (some "b") true 0 (.assignment (.request "b" ∅ "b-5")),
        .act (.assignPeerIndices 5),
        .receive (some "b") true 0 (.assignment (.acceptance "z" 1 "a-5"))] = some n ∧
    n.statusOperands none = [1, 1] ∧ n.statusOperands (some "b-5") = [] ∧
    (∀ x ∈ n.statusOperands none, usizeSub x 1 + 1 = x) := by
  have hrun : ∃ n : Node .plain, (nodeMachine .plain).run (.new "a")
      [.receive (some "b") true 0 (.assignment (.request "b" ∅ "b-5")),
        .act (.assignPeerIndices 5),
        .receive (some "b") true 0 (.assignment (.acceptance "z" 1 "a-5"))] = some n ∧
      n.statusOperands none = [1, 1] ∧ n.statusOperands (some "b-5") = [] :=
    ⟨_, rfl, by decide +kernel, by decide +kernel⟩
  obtain ⟨n, hn, hcurrent, hempty⟩ := hrun
  exact ⟨n, hn, hcurrent, hempty, (session_arithmetic ⟨_, _, ⟨"a", rfl⟩, hn⟩).2.2 none⟩

end P2pMpc
