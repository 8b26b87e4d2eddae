import P2pMpc.Lib.KeyedOps
import P2pMpc.Lib.Refinement
import P2pMpc.Readiness

/-!
# The session cells between the event loop and the RPC calls

`sessions` and `current_session_id` are two cells, each behind its own lock, that the event loop and
any number of RPC calls write and read. `assign_peer_indices` stores its session and then makes it
the current one; the event loop, for a Request, makes the session current first and stores it
afterwards; and `get_session_status` reads the one cell and then the other. What the operations of a
node do in one piece is taken apart here.

Once nothing is under way the cells are as if the operations had run one at a time
(`session_cells_serialize`). Before that they need not be: the current session may not be stored
yet, and `get_session_status` then does not find it (`status_of_current`).
-/

namespace P2pMpc

open StateMachine KeyedOps

variable {X : Platform}

/-- The cells `sessions` and `current_session_id`. -/
structure SessionCells where
  sessions : HashMap String SessionInfo
  currentSessionId : Option String

/-- An operation on the cells: a call of `assign_peer_indices`, a Request that lists the node, or an
Acceptance. -/
inductive SessionOp
  | assign (session : SessionInfo)
  | adopt (now : UInt64) (coordinatorId : String) (assignments : HashMap String ℕ)
      (sessionId : String)
  | accept (peerId sessionId : String)

namespace SessionOp

/-- The session it is about. -/
def sessionId : SessionOp → String
  | .assign session => session.sessionId
  | .adopt _ _ _ sessionId => sessionId
  | .accept _ sessionId => sessionId

/-- It makes its session the current one. -/
def names : SessionOp → Bool
  | .accept _ _ => false
  | _ => true

/-- What it makes of its session, as it finds it. -/
def update : SessionOp → Option SessionInfo → Option SessionInfo
  | .assign session, _ => some session
  | .adopt now coordinatorId assignments sessionId, found =>
      found <|> some (.new now sessionId coordinatorId assignments)
  | .accept peerId _, found => found.map fun session => session.accept peerId

/-- What it writes to `sessions`. -/
def write (sessions : HashMap String SessionInfo) : SessionOp → HashMap String SessionInfo
  | .assign session => sessions.insert session.sessionId session
  | .adopt now coordinatorId assignments sessionId =>
      if sessionId ∈ sessions then sessions
      else sessions.insert sessionId (.new now sessionId coordinatorId assignments)
  | .accept peerId sessionId =>
      match sessions.lookup sessionId with
      | none => sessions
      | some session => sessions.insert sessionId (session.accept peerId)

/-- The operation in one piece. -/
def apply (c : SessionCells) (op : SessionOp) : SessionCells where
  sessions := op.write c.sessions
  currentSessionId := if op.names then some op.sessionId else c.currentSessionId

theorem lookup_insert_eq (sessions : HashMap String SessionInfo) (sid sid' : String)
    (session : SessionInfo) : (sessions.insert sid session).lookup sid' =
      if sid' = sid then some session else sessions.lookup sid' := by
  split_ifs with h
  · rw [h]
    exact AList.lookup_insert _
  · exact AList.lookup_insert_ne h

/-- An operation writes its own session and no other. -/
theorem lookup_write (op : SessionOp) (sessions : HashMap String SessionInfo) (sid : String) :
    (op.write sessions).lookup sid =
      if sid = op.sessionId then op.update (sessions.lookup op.sessionId)
      else sessions.lookup sid := by
  cases op with
  | assign session => exact lookup_insert_eq _ _ _ _
  | adopt now c A sid' =>
    rw [write]
    split_ifs with hin hsid hsid
    · obtain ⟨session, hs⟩ := Option.isSome_iff_exists.1 (AList.lookup_isSome.2 hin)
      obtain rfl : sid = sid' := hsid
      simp [update, sessionId, hs]
    · rfl
    · obtain rfl : sid = sid' := hsid
      rw [lookup_insert_eq, if_pos rfl]
      simp [update, sessionId, AList.lookup_eq_none.2 hin]
    · rw [lookup_insert_eq]
      exact if_neg hsid
  | accept p sid' =>
    rw [write]
    cases hl : sessions.lookup sid' with
    | none =>
      split_ifs with hsid
      · obtain rfl : sid = sid' := hsid
        simp [update, sessionId, hl]
      · rfl
    | some session =>
      rw [lookup_insert_eq]
      simp [update, sessionId, hl]

/-- No operation removes a session. -/
theorem mem_write (op : SessionOp) {sessions : HashMap String SessionInfo} {sid : String}
    (h : sid ∈ sessions) : sid ∈ op.write sessions := by
  rw [← AList.lookup_isSome, lookup_write]
  obtain ⟨session, hs⟩ := Option.isSome_iff_exists.1 (AList.lookup_isSome.2 h)
  split_ifs with hsid
  · rw [← hsid, hs]
    cases op <;> rfl
  · rw [hs]
    rfl

/-- A session that is made current is stored. -/
theorem mem_write_of_names (op : SessionOp) (h : op.names = true)
    (sessions : HashMap String SessionInfo) : op.sessionId ∈ op.write sessions := by
  rw [← AList.lookup_isSome, lookup_write, if_pos rfl]
  cases op with
  | assign session => rfl
  | adopt now c A sid => cases hl : sessions.lookup sid <;> simp [update, sessionId, hl]
  | accept p sid => cases h

end SessionOp

/-- The session of each id. -/
def SessionCells.view (c : SessionCells) (sid : String) : Option SessionInfo :=
  c.sessions.lookup sid

theorem SessionCells.view_write (c : SessionCells) (op : SessionOp) (r : Option String) :
    SessionCells.view ⟨op.write c.sessions, r⟩ =
      Function.update c.view op.sessionId (op.update (c.view op.sessionId)) := by
  funext sid
  rw [Function.update_apply]
  exact op.lookup_write c.sessions sid

/-! ### The operations of a node are these -/

namespace Node

/-- The cells of a node. -/
def cells (n : Node X) : SessionCells := ⟨n.sessions, n.currentSessionId⟩

theorem cells_assignPeerIndices (n : Node X) (now : UInt64) :
    (n.assignPeerIndices now).1.cells = SessionOp.apply n.cells
      (.assign (.new now (n.newSessionId now) (X.peerToString n.id) n.createAssignments)) := rfl

theorem cells_handleRequest (n : Node X) (published : Bool) (now : UInt64) (c sid : String)
    (A : HashMap String ℕ) :
    (n.handleAssignmentMessage published now (.request c A sid)).1.cells =
      if X.peerToString n.id ∈ A then SessionOp.apply n.cells (.adopt now c A sid)
      else n.cells := by
  rcases n.handleRequest_cases published now c A sid with ⟨hmem, he⟩ | ⟨i, hi, hcase⟩
  · rw [he, if_neg hmem]
  · have hmem : X.peerToString n.id ∈ A := AList.lookup_isSome.1 (by simp [hi])
    rw [if_pos hmem]
    rcases hcase with ⟨-, he⟩ | ⟨-, -, he⟩ <;> rw [he] <;> rfl

theorem cells_handleAcceptance (n : Node X) (published : Bool) (now : UInt64) (p sid : String)
    (i : ℕ) : (n.handleAssignmentMessage published now (.acceptance p i sid)).1.cells =
      SessionOp.apply n.cells (.accept p sid) := by
  have happly : SessionOp.apply n.cells (.accept p sid) =
      ⟨match n.sessions.lookup sid with
        | none => n.sessions
        | some session => n.sessions.insert sid (session.accept p), n.currentSessionId⟩ := rfl
  rw [happly]
  rcases n.handleAcceptance_cases published now p i sid with
    ⟨hnone, he⟩ | ⟨session, hsome, ⟨-, he⟩ | ⟨-, he⟩⟩
  · rw [he, hnone]
    rfl
  · rw [he, hsome]
    rfl
  · rw [he, hsome]
    rfl

end Node

/-- `get_session_status`, once it has the id. -/
def SessionCells.status (c : SessionCells) (targetSessionId : String) : SessionStatusResponse :=
  match c.sessions.lookup targetSessionId with
  | some session => session.status
  | none => .missing targetSessionId ("Session '" ++ targetSessionId ++ "' not found")

/-- In one piece `get_session_status` reads both cells of one moment. -/
theorem Node.getSessionStatus_eq (n : Node X) (sessionId : Option String) :
    n.getSessionStatus sessionId =
      match sessionId <|> n.cells.currentSessionId with
      | none => .missing "" "No active session found"
      | some targetSessionId => n.cells.status targetSessionId := rfl

/-! ### The operations taken apart -/

/-- What the event loop is about to write for an assignment message. -/
inductive LoopWrite
  | name (coordinatorId : String) (assignments : HashMap String ℕ) (sessionId : String)
  | store (coordinatorId : String) (assignments : HashMap String ℕ) (sessionId : String)
  | accept (peerId sessionId : String)

/-- What a call of `assign_peer_indices` is about to write. -/
inductive AssignPc
  | store (session : SessionInfo)
  | name (sessionId : String)
  | done

/-- What a call of `get_session_status` is about to read. -/
inductive StatusPc
  | current
  | look (targetSessionId : String)
  | answered (r : SessionStatusResponse)

/-- A call of `get_session_status`. -/
structure StatusCall where
  sessionId : Option String
  pc : StatusPc

/-- The cells, with the event loop and the calls that are at them. -/
structure SharedSessions where
  /-- The peer id of the node, as a string. -/
  peerId : String
  cells : SessionCells
  loop : Option LoopWrite
  calls : List AssignPc
  statusCalls : List StatusCall

/-- The event loop takes an assignment message or makes its next write at the time `now`; a call
of `assign_peer_indices` is made, with its two readings of the clock, or makes its next write; a
call of `get_session_status` is made, or makes its next read. -/
inductive SessionLabel
  | receive (msg : AssignmentMessage)
  | loop (now : UInt64)
  | assignPeerIndices (now createdAt : UInt64) (assignments : HashMap String ℕ)
  | call (i : ℕ)
  | getSessionStatus (sessionId : Option String)
  | statusCall (i : ℕ)

namespace SharedSessions

def new (peerId : String) : SharedSessions := ⟨peerId, ⟨∅, none⟩, none, [], []⟩

/-- What the event loop has to write for a message. -/
def writes (s : SharedSessions) : AssignmentMessage → Option LoopWrite
  | .request coordinatorId assignments sessionId =>
      if s.peerId ∈ assignments then some (.name coordinatorId assignments sessionId) else none
  | .acceptance peerId _ sessionId => some (.accept peerId sessionId)

/-- `*current = Some(session_id)`. -/
def setCurrent (s : SharedSessions) (sessionId : String) : SharedSessions :=
  { s with cells := { s.cells with currentSessionId := some sessionId } }

/-- The write of an operation to `sessions`. -/
def write (s : SharedSessions) (op : SessionOp) : SharedSessions :=
  { s with cells := { s.cells with sessions := op.write s.cells.sessions } }

/-- The call after its next read. -/
def read (s : SharedSessions) : StatusPc → Option StatusPc
  | .current =>
      match s.cells.currentSessionId with
      | none => some (.answered (.missing "" "No active session found"))
      | some sessionId => some (.look sessionId)
  | .look targetSessionId => some (.answered (s.cells.status targetSessionId))
  | .answered _ => none

def step (s : SharedSessions) : SessionLabel → Option SharedSessions
  | .receive msg =>
      match s.loop with
      | none => some { s with loop := s.writes msg }
      | some _ => none
  | .loop now =>
      match s.loop with
      | none => none
      | some (.name c A sid) => some { s.setCurrent sid with loop := some (.store c A sid) }
      | some (.store c A sid) => some { s.write (.adopt now c A sid) with loop := none }
      | some (.accept p sid) => some { s.write (.accept p sid) with loop := none }
  | .assignPeerIndices now createdAt assignments =>
      let sessionId := s.peerId ++ "-" ++ toString now.toNat
      some { s with
        calls := s.calls ++ [.store (.new createdAt sessionId s.peerId assignments)] }
  | .call i =>
      match s.calls[i]? with
      | some (.store session) =>
          some { s.write (.assign session) with
            calls := s.calls.set i (.name session.sessionId) }
      | some (.name sid) => some { s.setCurrent sid with calls := s.calls.set i .done }
      | _ => none
  | .getSessionStatus sessionId =>
      let pc := match sessionId with
        | some targetSessionId => StatusPc.look targetSessionId
        | none => .current
      some { s with statusCalls := s.statusCalls ++ [⟨sessionId, pc⟩] }
  | .statusCall i =>
      match s.statusCalls[i]? with
      | none => none
      | some call => (s.read call.pc).map fun pc =>
          { s with statusCalls := s.statusCalls.set i { call with pc := pc } }

/-- The operation whose write to `sessions` a step is. -/
def operation (s : SharedSessions) : SessionLabel → Option SessionOp
  | .loop now =>
      match s.loop with
      | some (.store c A sid) => some (.adopt now c A sid)
      | some (.accept p sid) => some (.accept p sid)
      | _ => none
  | .call i =>
      match s.calls[i]? with
      | some (.store session) => some (.assign session)
      | _ => none
  | _ => none

/-- What a step adds to the history: an operation, with the session it finds. -/
def shows (s : SharedSessions) (l : SessionLabel) : List (SessionOp × Option SessionInfo) :=
  (s.operation l).toList.map fun op => (op, s.cells.view op.sessionId)

/-- Nothing is under way. -/
def AtRest (s : SharedSessions) : Prop := s.loop = none ∧ ∀ pc ∈ s.calls, pc = .done

end SharedSessions

/-- The session cells of a node, from its start on. -/
def sessionMachine : Machine SharedSessions SessionLabel where
  init s := ∃ peerId, s = .new peerId
  step := SharedSessions.step

/-! ### What a step does -/

namespace SharedSessions

variable {s t : SharedSessions} {l : SessionLabel} {sid : String}

/-- The event loop has made the session current and not yet stored it. -/
def Storing (s : SharedSessions) (sid : String) : Prop := ∃ c A, s.loop = some (.store c A sid)

/-- What a step does to the cells, to the event loop and to the calls of `assign_peer_indices`. -/
inductive Stepped (s t : SharedSessions) : SessionLabel → Prop
  | quiet {l : SessionLabel} (hshows : s.shows l = []) (hcells : t.cells = s.cells)
      (hloop : t.loop = s.loop ∨ (s.loop = none ∧ ∀ sid, ¬ t.Storing sid))
      (hcalls : ∀ sid, .name sid ∈ t.calls ↔ .name sid ∈ s.calls) : Stepped s t l
  | loopName (now : UInt64) {c : String} {A : HashMap String ℕ} {sid : String}
      (hloop : s.loop = some (.name c A sid))
      (ht : t = { s.setCurrent sid with loop := some (.store c A sid) }) : Stepped s t (.loop now)
  | loopStore (now : UInt64) {c : String} {A : HashMap String ℕ} {sid : String}
      (hloop : s.loop = some (.store c A sid))
      (ht : t = { s.write (.adopt now c A sid) with loop := none }) : Stepped s t (.loop now)
  | loopAccept (now : UInt64) {p sid : String} (hloop : s.loop = some (.accept p sid))
      (ht : t = { s.write (.accept p sid) with loop := none }) : Stepped s t (.loop now)
  | callStore (i : ℕ) {session : SessionInfo} (hi : s.calls[i]? = some (.store session))
      (ht : t = { s.write (.assign session) with
        calls := s.calls.set i (.name session.sessionId) }) : Stepped s t (.call i)
  | callName (i : ℕ) {sid : String} (hi : s.calls[i]? = some (.name sid))
      (ht : t = { s.setCurrent sid with calls := s.calls.set i .done }) : Stepped s t (.call i)

theorem step_cases (h : s.step l = some t) : Stepped s t l := by
  cases l with
  | receive msg =>
    simp only [step] at h
    cases hloop : s.loop with
    | some w => simp [hloop] at h
    | none =>
      rw [hloop] at h
      cases h
      refine .quiet rfl rfl (.inr ⟨hloop, ?_⟩) fun _ => Iff.rfl
      rintro sid ⟨c, A, hstore⟩
      cases msg with
      | request c' A' sid' =>
        dsimp only [writes] at hstore
        split_ifs at hstore
        cases hstore
      | acceptance p i sid' => cases hstore
  | loop now =>
    simp only [step] at h
    cases hloop : s.loop with
    | none => simp [hloop] at h
    | some w =>
      rw [hloop] at h
      cases w with
      | name c A sid => exact .loopName now hloop (Option.some.inj h).symm
      | store c A sid => exact .loopStore now hloop (Option.some.inj h).symm
      | accept p sid => exact .loopAccept now hloop (Option.some.inj h).symm
  | assignPeerIndices now createdAt A =>
    cases h
    exact .quiet rfl rfl (.inl rfl) fun sid => by simp
  | call i =>
    simp only [step] at h
    cases hi : s.calls[i]? with
    | none => simp [hi] at h
    | some pc =>
      rw [hi] at h
      cases pc with
      | store session => exact .callStore i hi (Option.some.inj h).symm
      | name sid => exact .callName i hi (Option.some.inj h).symm
      | done => cases h
  | getSessionStatus sessionId =>
    cases h
    exact .quiet rfl rfl (.inl rfl) fun _ => Iff.rfl
  | statusCall i =>
    simp only [step] at h
    cases hi : s.statusCalls[i]? with
    | none => simp [hi] at h
    | some call =>
      rw [hi] at h
      obtain ⟨pc, -, rfl⟩ := Option.map_eq_some_iff.1 h
      exact .quiet rfl rfl (.inl rfl) fun _ => Iff.rfl

/-! ### One at a time -/

/-- The history `h` leads to the sessions, and the current session is one that it names, or that is
about to be stored. -/
structure Serializes (h : List (SessionOp × Option SessionInfo)) (s : SharedSessions) : Prop where
  explains : Explains SessionOp.sessionId SessionOp.update (fun _ => none) h s.cells.view
  current : ∀ sid ∈ s.cells.currentSessionId,
    (∃ e ∈ h, e.1.names = true ∧ e.1.sessionId = sid) ∨ s.Storing sid
  named : (∃ e ∈ h, e.1.names = true) → s.cells.currentSessionId.isSome ∨ ∃ sid, .name sid ∈ s.calls
  calls : ∀ sid, .name sid ∈ s.calls → ∃ e ∈ h, e.1.names = true ∧ e.1.sessionId = sid
  storing : ∀ sid, s.Storing sid → s.cells.currentSessionId.isSome

section

variable {h : List (SessionOp × Option SessionInfo)}

/-- A write is one operation more in the history. -/
theorem Serializes.explains_write (hs : s.Serializes h) (op : SessionOp) :
    Explains SessionOp.sessionId SessionOp.update (fun _ => none)
      (h ++ [(op, s.cells.view op.sessionId)]) (s.write op).cells.view := by
  have hconcat := hs.explains.concat op
  rw [← s.cells.view_write op s.cells.currentSessionId] at hconcat
  exact hconcat

theorem Serializes.step (hs : s.Serializes h) (hl : s.step l = some t) :
    t.Serializes (h ++ s.shows l) := by
  have hmem : ∀ {x : SessionOp × Option SessionInfo} {sid : String},
      (∃ e ∈ h, e.1.names = true ∧ e.1.sessionId = sid) →
        ∃ e ∈ h ++ [x], e.1.names = true ∧ e.1.sessionId = sid := by
    rintro x sid ⟨e, he, hname⟩
    exact ⟨e, List.mem_append_left _ he, hname⟩
  cases step_cases hl with
  | quiet hshows hcells hloop hcalls =>
    have hstoring : ∀ {sid}, t.Storing sid → s.Storing sid := by
      rintro sid ⟨c, A, hstore⟩
      rcases hloop with heq | ⟨-, hnone⟩
      · exact ⟨c, A, heq ▸ hstore⟩
      · exact absurd ⟨c, A, hstore⟩ (hnone sid)
    rw [hshows, List.append_nil]
    refine ⟨hcells ▸ hs.explains, fun sid hsid => ?_, fun hname => ?_, fun sid hsid => ?_,
      fun sid hsid => ?_⟩
    · rw [hcells] at hsid
      refine (hs.current sid hsid).imp_right ?_
      rintro ⟨c, A, hstore⟩
      rcases hloop with heq | ⟨hnone, -⟩
      · exact ⟨c, A, heq.trans hstore⟩
      · rw [hnone] at hstore
        cases hstore
    · rw [hcells]
      refine (hs.named hname).imp_right ?_
      rintro ⟨sid, hsid⟩
      exact ⟨sid, (hcalls sid).2 hsid⟩
    · exact hs.calls sid ((hcalls sid).1 hsid)
    · rw [hcells]
      exact hs.storing sid (hstoring hsid)
  | loopName now hloop ht =>
    subst ht
    have hshows : s.shows (.loop now) = [] := by simp [shows, operation, hloop]
    rw [hshows, List.append_nil]
    refine ⟨hs.explains, fun sid hsid => ?_, fun _ => .inl rfl, hs.calls, fun _ _ => rfl⟩
    obtain rfl := Option.some.inj hsid
    exact .inr ⟨_, _, rfl⟩
  | @loopStore now c A sid hloop ht =>
    subst ht
    have hshows : s.shows (.loop now) = [(.adopt now c A sid, s.cells.view sid)] := by
      simp [shows, operation, hloop, SessionOp.sessionId]
    rw [hshows]
    refine ⟨hs.explains_write (.adopt now c A sid), fun sid' hsid => .inl ?_,
      fun _ => .inl (hs.storing sid ⟨c, A, hloop⟩), fun sid' hsid => hmem (hs.calls sid' hsid), ?_⟩
    · rcases hs.current sid' hsid with hold | ⟨c', A', hstore⟩
      · exact hmem hold
      · rw [hloop] at hstore
        cases hstore
        exact ⟨_, List.mem_append_right _ (List.mem_singleton_self _), rfl, rfl⟩
    · rintro sid' ⟨c', A', hstore⟩
      cases hstore
  | @loopAccept now p sid hloop ht =>
    subst ht
    have hshows : s.shows (.loop now) = [(.accept p sid, s.cells.view sid)] := by
      simp [shows, operation, hloop, SessionOp.sessionId]
    rw [hshows]
    refine ⟨hs.explains_write (.accept p sid), fun sid' hsid => .inl ?_, fun hname => hs.named ?_,
      fun sid' hsid => hmem (hs.calls sid' hsid), ?_⟩
    · rcases hs.current sid' hsid with hold | ⟨c', A', hstore⟩
      · exact hmem hold
      · rw [hloop] at hstore
        cases hstore
    · obtain ⟨e, he, hname⟩ := hname
      rcases List.mem_append.1 he with he | he
      · exact ⟨e, he, hname⟩
      · rw [List.mem_singleton.1 he] at hname
        cases hname
    · rintro sid' ⟨c', A', hstore⟩
      cases hstore
  | @callStore i session hi ht =>
    subst ht
    have hshows : s.shows (.call i) = [(.assign session, s.cells.view session.sessionId)] := by
      simp [shows, operation, hi, SessionOp.sessionId]
    obtain ⟨hlt, -⟩ := List.getElem?_eq_some_iff.1 hi
    rw [hshows]
    refine ⟨hs.explains_write (.assign session),
      fun sid' hsid => (hs.current sid' hsid).imp_left hmem,
      fun _ => .inr ⟨session.sessionId, List.mem_set hlt _⟩, fun sid' hsid => ?_, hs.storing⟩
    rcases List.mem_or_eq_of_mem_set hsid with hold | hnew
    · exact hmem (hs.calls sid' hold)
    · cases hnew
      exact ⟨_, List.mem_append_right _ (List.mem_singleton_self _), rfl, rfl⟩
  | @callName i sid hi ht =>
    subst ht
    have hshows : s.shows (.call i) = [] := by simp [shows, operation, hi]
    rw [hshows, List.append_nil]
    refine ⟨hs.explains, fun sid' hsid => .inl ?_, fun _ => .inl rfl, fun sid' hsid => ?_,
      fun _ _ => rfl⟩
    · obtain rfl := Option.some.inj hsid
      exact hs.calls sid (List.mem_of_getElem? hi)
    · rcases List.mem_or_eq_of_mem_set hsid with hold | hnew
      · exact hs.calls sid' hold
      · cases hnew

theorem serializes_new (peerId : String) : (new peerId).Serializes [] where
  explains := rfl
  current sid hsid := by cases hsid
  named hname := by
    obtain ⟨e, he, -⟩ := hname
    cases he
  calls sid hsid := by cases hsid
  storing sid hsid := by
    obtain ⟨c, A, hstore⟩ := hsid
    cases hstore

/-- The history of a whole run. -/
theorem Serializes.run {ls : List SessionLabel} (hs : s.Serializes h)
    (hr : sessionMachine.run s ls = some t) :
    t.Serializes (h ++ sessionMachine.trace shows s ls) := by
  induction ls generalizing s h with
  | nil =>
    cases hr
    simpa [Machine.trace] using hs
  | cons l ls ih =>
    obtain ⟨u, hu, hr⟩ := Machine.run_cons_eq_some.1 hr
    rw [Machine.trace_cons hu, ← List.append_assoc]
    exact ih (hs.step hu) hr

end

end SharedSessions

/-- The operations of a history, one at a time, find what it says and lead from `c` to `d`. -/
def SessionCells.Serial (c : SessionCells) :
    List (SessionOp × Option SessionInfo) → SessionCells → Prop
  | [], d => c = d
  | e :: h, d => c.view e.1.sessionId = e.2 ∧ (e.1.apply c).Serial h d

/-- A history that explains the sessions can be gone through one operation at a time. -/
theorem SessionCells.exists_serial {c : SessionCells} {h : List (SessionOp × Option SessionInfo)}
    {g : String → Option SessionInfo}
    (hexplains : Explains SessionOp.sessionId SessionOp.update c.view h g) :
    ∃ d, c.Serial h d ∧ d.view = g ∧
      d.currentSessionId = register SessionOp.sessionId SessionOp.names c.currentSessionId h := by
  induction h generalizing c with
  | nil => exact ⟨c, rfl, hexplains, rfl⟩
  | cons e h ih =>
    obtain ⟨hfound, hrest⟩ := hexplains
    rw [← hfound, ← c.view_write e.1 (e.1.apply c).currentSessionId] at hrest
    obtain ⟨d, hserial, hview, hcurrent⟩ := ih hrest
    exact ⟨d, ⟨hfound, hserial⟩, hview, hcurrent⟩

/-- Once nothing is under way, the cells are as if the operations of the run had been done one at a
time, in some order that is the same for those on one session, each finding the session that it has
found. -/
theorem session_cells_serialize {s t : SharedSessions} {ls : List SessionLabel}
    (h₀ : sessionMachine.init s) (hr : sessionMachine.run s ls = some t) (hrest : t.AtRest) :
    ∃ h c, h.Perm (sessionMachine.trace SharedSessions.shows s ls) ∧
      (∀ sid, onKey SessionOp.sessionId sid h =
        onKey SessionOp.sessionId sid (sessionMachine.trace SharedSessions.shows s ls)) ∧
      SessionCells.Serial ⟨∅, none⟩ h c ∧ c.view = t.cells.view ∧
      c.currentSessionId = t.cells.currentSessionId := by
  obtain ⟨peerId, rfl⟩ := h₀
  have hs := (SharedSessions.serializes_new peerId).run hr
  rw [List.nil_append] at hs
  obtain ⟨hloop, hdone⟩ := hrest
  have hstoring : ∀ sid, ¬ t.Storing sid := by
    rintro sid ⟨c, A, hstore⟩
    rw [hloop] at hstore
    cases hstore
  cases hcurrent : t.cells.currentSessionId with
  | none =>
    -- no operation has named its session
    have hnames : ∀ e ∈ sessionMachine.trace SharedSessions.shows (.new peerId) ls,
        e.1.names = false := by
      intro e he
      by_contra hname
      rcases hs.named ⟨e, he, by simpa using hname⟩ with hsome | ⟨sid, hsid⟩
      · simp [hcurrent] at hsome
      · cases hdone _ hsid
    obtain ⟨c, hserial, hview, hc⟩ := SessionCells.exists_serial (c := ⟨∅, none⟩) hs.explains
    exact ⟨_, c, List.Perm.refl _, fun _ => rfl, hserial, hview,
      hc.trans (register_of_forall hnames)⟩
  | some sid =>
    have hnamed := (hs.current sid hcurrent).resolve_right (hstoring sid)
    obtain ⟨h, hperm, honKey, hexplains, hregister⟩ := exists_history (r := none) hs.explains hnamed
    obtain ⟨c, hserial, hview, hc⟩ := SessionCells.exists_serial (c := ⟨∅, none⟩) hexplains
    exact ⟨h, c, hperm, honKey, hserial, hview, hc.trans hregister⟩

/-! ### The current session in between -/

namespace SharedSessions

variable {s t : SharedSessions} {l : SessionLabel} {sid : String}

/-- The session is stored, or is about to be. -/
def Expects (s : SharedSessions) (sid : String) : Prop :=
  sid ∈ s.cells.sessions ∨ s.Storing sid

/-- The current session is stored or is about to be, and so is the one that a call of
`get_session_status` has found to be current. -/
structure Expected (s : SharedSessions) : Prop where
  current : ∀ sid ∈ s.cells.currentSessionId, s.Expects sid
  calls : ∀ sid, .name sid ∈ s.calls → sid ∈ s.cells.sessions
  looks : ∀ sid, ⟨none, .look sid⟩ ∈ s.statusCalls → s.Expects sid

theorem Expects.step (h : s.Expects sid) (hl : s.step l = some t) : t.Expects sid := by
  rcases h with hmem | ⟨c, A, hstore⟩
  · left
    cases step_cases hl with
    | quiet _ hcells _ _ => exact hcells ▸ hmem
    | loopName _ _ ht | callName _ _ ht =>
      subst ht
      exact hmem
    | loopStore _ _ ht | loopAccept _ _ ht | callStore _ _ ht =>
      subst ht
      exact SessionOp.mem_write _ hmem
  · cases step_cases hl with
    | quiet _ _ hloop _ =>
      rcases hloop with heq | ⟨hnone, -⟩
      · exact .inr ⟨c, A, heq.trans hstore⟩
      · rw [hnone] at hstore
        cases hstore
    | loopName _ hloop _ | loopAccept _ hloop _ =>
      rw [hstore] at hloop
      cases hloop
    | loopStore now hloop ht =>
      subst ht
      rw [hstore] at hloop
      cases hloop
      exact .inl (SessionOp.mem_write_of_names (.adopt now c A sid) rfl _)
    | callStore _ _ ht | callName _ _ ht =>
      subst ht
      exact .inr ⟨c, A, hstore⟩

/-- A call that looks up the current session has been doing so, or has just found it current. -/
theorem mem_statusCalls_of_step (hl : s.step l = some t)
    (h : (⟨none, .look sid⟩ : StatusCall) ∈ t.statusCalls) :
    (⟨none, .look sid⟩ : StatusCall) ∈ s.statusCalls ∨ sid ∈ s.cells.currentSessionId := by
  cases l with
  | receive | loop | call =>
    simp only [step] at hl
    split at hl <;> cases hl <;> exact .inl h
  | assignPeerIndices now createdAt A =>
    cases hl
    exact .inl h
  | getSessionStatus sessionId =>
    cases hl
    rcases List.mem_append.1 h with hold | hnew
    · exact .inl hold
    · have heq := List.mem_singleton.1 hnew
      cases sessionId <;> cases heq
  | statusCall i =>
    simp only [step] at hl
    cases hi : s.statusCalls[i]? with
    | none => simp [hi] at hl
    | some call =>
      rw [hi] at hl
      obtain ⟨pc, hread, rfl⟩ := Option.map_eq_some_iff.1 hl
      rcases List.mem_or_eq_of_mem_set h with hold | hnew
      · exact .inl hold
      · injection hnew with hsession hpc
        subst hpc
        right
        cases hcall : call.pc with
        | current =>
          rw [hcall, read] at hread
          cases hcurrent : s.cells.currentSessionId with
          | none =>
            rw [hcurrent] at hread
            cases hread
          | some sid' =>
            rw [hcurrent] at hread
            cases hread
            exact rfl
        | look target =>
          rw [hcall] at hread
          cases hread
        | answered r =>
          rw [hcall] at hread
          cases hread

theorem Expected.step (h : s.Expected) (hl : s.step l = some t) : t.Expected := by
  have hlooks : ∀ sid, ⟨none, .look sid⟩ ∈ t.statusCalls → t.Expects sid := by
    intro sid hsid
    rcases mem_statusCalls_of_step hl hsid with hold | hcurrent
    · exact (h.looks sid hold).step hl
    · exact (h.current sid hcurrent).step hl
  cases step_cases hl with
  | quiet _ hcells _ hcalls =>
    refine ⟨fun sid hsid => ?_, fun sid hsid => ?_, hlooks⟩
    · rw [hcells] at hsid
      exact (h.current sid hsid).step hl
    · rw [hcells]
      exact h.calls sid ((hcalls sid).1 hsid)
  | loopName now hloop ht =>
    subst ht
    refine ⟨fun sid hsid => ?_, h.calls, hlooks⟩
    obtain rfl := Option.some.inj hsid
    exact .inr ⟨_, _, rfl⟩
  | loopStore _ _ ht | loopAccept _ _ ht =>
    subst ht
    exact ⟨fun sid hsid => (h.current sid hsid).step hl,
      fun sid hsid => SessionOp.mem_write _ (h.calls sid hsid), hlooks⟩
  | @callStore i session hi ht =>
    subst ht
    refine ⟨fun sid hsid => (h.current sid hsid).step hl, fun sid hsid => ?_, hlooks⟩
    rcases List.mem_or_eq_of_mem_set hsid with hold | hnew
    · exact SessionOp.mem_write _ (h.calls sid hold)
    · cases hnew
      exact SessionOp.mem_write_of_names (.assign session) rfl _
  | callName i hi ht =>
    subst ht
    refine ⟨fun sid hsid => ?_, fun sid hsid => ?_, hlooks⟩
    · obtain rfl := Option.some.inj hsid
      exact .inl (h.calls _ (List.mem_of_getElem? hi))
    · rcases List.mem_or_eq_of_mem_set hsid with hold | hnew
      · exact h.calls sid hold
      · cases hnew

theorem expected_new (peerId : String) : (new peerId).Expected where
  current sid hsid := by cases hsid
  calls sid hsid := by cases hsid
  looks sid hsid := by cases hsid

end SharedSessions

/-- In every state the current session is stored, unless the event loop has made it current and not
yet stored it. A call of `get_session_status` that has found a session current answers with it as it
is stored, or that it is not found; and then the event loop stands between its two writes for it at
this very moment. -/
theorem status_of_current {s : SharedSessions} (h : sessionMachine.Reachable s) :
    (∀ sid ∈ s.cells.currentSessionId, sid ∈ s.cells.sessions ∨ s.Storing sid) ∧
    ∀ i sid t, s.statusCalls[i]? = some ⟨none, .look sid⟩ → s.step (.statusCall i) = some t →
      (∃ session, s.cells.sessions.lookup sid = some session ∧
        t.statusCalls[i]? = some ⟨none, .answered session.status⟩) ∨
      (s.Storing sid ∧ t.statusCalls[i]? =
        some ⟨none, .answered (.missing sid ("Session '" ++ sid ++ "' not found"))⟩) := by
  have hexpected : s.Expected := by
    apply h.induct
    · rintro _ ⟨peerId, rfl⟩
      exact SharedSessions.expected_new peerId
    · exact fun _ _ _ hs hl => hs.step hl
  refine ⟨hexpected.current, fun i sid t hi hl => ?_⟩
  simp only [SharedSessions.step, hi, SharedSessions.read, Option.map_some, Option.some.injEq] at hl
  subst hl
  obtain ⟨hlt, -⟩ := List.getElem?_eq_some_iff.1 hi
  have hanswer : (s.statusCalls.set i ⟨none, .answered (s.cells.status sid)⟩)[i]? =
      some ⟨none, .answered (s.cells.status sid)⟩ := by simp [hlt]
  cases hsession : s.cells.sessions.lookup sid with
  | some session =>
    refine .inl ⟨session, rfl, ?_⟩
    rw [hanswer, SessionCells.status, hsession]
  | none =>
    have hmissing : sid ∉ s.cells.sessions := AList.lookup_eq_none.1 hsession
    refine .inr ⟨(hexpected.looks sid (List.mem_of_getElem? hi)).resolve_left hmissing, ?_⟩
    rw [hanswer, SessionCells.status, hsession]

namespace SharedSessionsRun

/-- The node `a` makes two assignments at once, and the one that is stored first is made current
last. -/
def crossed : List SessionLabel :=
  [.assignPeerIndices 1 1 (.ofEntries [("a", 0), ("b", 1)]),
    .assignPeerIndices 2 2 (.ofEntries [("a", 0), ("b", 1)]), .call 0, .call 1, .call 1, .call 0]

/-- Somebody asks for the current session of `a` while it adopts one of `b`. -/
def between : List SessionLabel :=
  [.receive (.request "b" (.ofEntries [("b", 0), ("a", 1)]) "b-1"), .loop 5,
    .getSessionStatus none, .statusCall 0]

end SharedSessionsRun

open SharedSessionsRun

/-- The crossed assignments are as if the second had been made first. -/
theorem crossed_assignments_serialize : ∃ t h c, sessionMachine.run (.new "a") crossed = some t ∧
    h.Perm (sessionMachine.trace SharedSessions.shows (.new "a") crossed) ∧
    SessionCells.Serial ⟨∅, none⟩ h c ∧ c.view = t.cells.view ∧
    c.currentSessionId = some ("a" ++ "-" ++ toString (1 : UInt64).toNat) := by
  obtain ⟨t, hr, hrest, hcurrent⟩ : ∃ t, sessionMachine.run (.new "a") crossed = some t ∧
      t.AtRest ∧ t.cells.currentSessionId = some ("a" ++ "-" ++ toString (1 : UInt64).toNat) :=
    ⟨_, rfl, ⟨rfl, List.forall_mem_cons.2 ⟨rfl, List.forall_mem_singleton.2 rfl⟩⟩, rfl⟩
  obtain ⟨h, c, hperm, -, hserial, hview, hc⟩ := session_cells_serialize ⟨"a", rfl⟩ hr hrest
  exact ⟨t, h, c, hr, hperm, hserial, hview, hc.trans hcurrent⟩

/-- The current session is not found. -/
theorem current_session_not_found : ∃ s t, sessionMachine.Reachable s ∧
    s.cells.currentSessionId = some "b-1" ∧ s.step (.statusCall 0) = some t ∧
    t.statusCalls[0]? =
      some ⟨none, .answered (.missing "b-1" ("Session '" ++ "b-1" ++ "' not found"))⟩ := by
  obtain ⟨s, t, hr, hcurrent, hlook, hnone, hl⟩ : ∃ s t,
      sessionMachine.run (.new "a") between = some s ∧ s.cells.currentSessionId = some "b-1" ∧
        s.statusCalls[0]? = some ⟨none, .look "b-1"⟩ ∧ s.cells.sessions.lookup "b-1" = none ∧
        s.step (.statusCall 0) = some t := ⟨_, _, rfl, rfl, rfl, rfl, rfl⟩
  have hreachable : sessionMachine.Reachable s := ⟨_, _, ⟨"a", rfl⟩, hr⟩
  refine ⟨s, t, hreachable, hcurrent, hl, ?_⟩
  rcases (status_of_current hreachable).2 0 "b-1" t hlook hl with ⟨session, hs, -⟩ | ⟨-, hanswer⟩
  · rw [hnone] at hs
    cases hs
  · exact hanswer

end P2pMpc
