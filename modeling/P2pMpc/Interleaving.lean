import P2pMpc.Lib.Machine
import P2pMpc.Orchestrator

/-!
# An orchestrator under every interleaving

One orchestrator instance is a machine whose labels are the lock-level steps of everything that
touches its cells: a call of `handle_coordination_message` (at most one at a time, because it takes
`&mut self`), the later lock acquisitions of that call, the return of a protocol run, and the lock
acquisitions of the task that ran it. A step that would have to wait for a lock is not enabled:

* the state lock is held from the checks of an Initiate handler to its end, that is while a call
  is pending;
* the lock of the aux info is held by an aux task from its store to its state write, and for
  reading by a signing handler between its two reads.

`run_call_uninterrupted` relates the machine to `handleCoordinationMessage`: a call whose steps are
not interleaved with others has the effect of the handler.
-/

namespace P2pMpc

open StateMachine

variable {X : Platform}

/-- An orchestrator and the tasks it has spawned. -/
structure Instance (X : Platform) where
  orch : MPCOrchestrator X
  tasks : List (Task X)

/-- A handler call that holds the state lock and waits for another cell: `keygen` and `signing`
wait for the aux info, `signingAux` has read it and waits for the key share. -/
inductive Pending (X : Platform)
  | keygen (ourPartyIndex : PartyIndex) (threshold totalParties : UInt16) (timestamp : UInt64)
  | signing (ourPartyIdx : PartyIndex) (message : List UInt8) (signers : List PartyIndex)
      (timestamp : UInt64)
  | signingAux (ourPartyIdx : PartyIndex) (auxInfo : X.AuxInfo) (message : List UInt8)
      (signers : List PartyIndex) (timestamp : UInt64)

/-- The state of the machine: the instance and the handler call in progress. -/
structure Config (X : Platform) where
  inst : Instance X
  pending : Option (Pending X)

/-- What a protocol run returns to the task that ran it. -/
inductive Outcome (X : Platform)
  | aux (r : Except String X.AuxInfo)
  | keygen (r : Except String X.KeyShare)
  | signing (r : Except String X.Signature)

/-- The steps of the machine; tasks are named by the order they were spawned in. -/
inductive Label (X : Platform)
  | call (chan : ChannelId) (sender : X.PeerId) (msg : CoordinationMessage X)
  | resume (chan : ChannelId)
  | finish (task : ℕ) (r : Outcome X)
  | advance (task : ℕ)

/-! ### Tasks -/

/-- The protocol run of a task returns. -/
def Task.finish : Outcome X → Task X → Option (Task X)
  | .aux r, .aux p n ts .running => some (.aux p n ts (.returned r))
  | .keygen r, .keygen p n t ts .running => some (.keygen p n t ts (.returned r))
  | .signing r, .signing p s m ts .running => some (.signing p s m ts (.returned r))
  | _, _ => none

/-- The next lock acquisition of a task whose protocol run has returned, with what it writes under
the lock; `stateFree` and `auxFree` say that the locks it may need are free. -/
def Task.advance (stateFree auxFree : Bool) (o : MPCOrchestrator X) :
    Task X → Option (MPCOrchestrator X × Task X)
  | .aux p n ts (.returned (.ok a)) =>
      if auxFree then some ({ o with auxInfo := some a }, .aux p n ts .stored) else none
  | .aux p n ts .stored =>
      if stateFree then some ({ o with state := .auxCompleted }, .aux p n ts .done) else none
  | .aux p n ts (.returned (.error e)) =>
      if stateFree then
        some ({ o with state := .failed "aux_generation" e }, .aux p n ts .done)
      else none
  | .keygen p n t ts (.returned (.ok share)) =>
      if stateFree then
        some ({ o with state := .keygenCompleted (publicKeyHex share) },
          .keygen p n t ts (.published share))
      else none
  | .keygen p n t ts (.published share) =>
      some ({ o with keyShare := some share }, .keygen p n t ts .done)
  | .keygen p n t ts (.returned (.error e)) =>
      if stateFree then some ({ o with state := .failed "keygen" e }, .keygen p n t ts .done)
      else none
  | .signing p s m ts (.returned (.ok sig)) =>
      if stateFree then
        some ({ o with state := .signingCompleted (X.debugSignature sig) },
          .signing p s m ts .done)
      else none
  | .signing p s m ts (.returned (.error e)) =>
      if stateFree then some ({ o with state := .failed "signing" e }, .signing p s m ts .done)
      else none
  | _ => none

/-- An aux task that holds the lock of the aux info. -/
def Task.storing : Task X → Bool
  | .aux _ _ _ .stored => true
  | _ => false

/-! ### Handler calls -/

namespace Config

/-- The effect of a call that has returned. -/
def reply (c : Config X) (r : Reply X) : Config X :=
  ⟨⟨r.orch, c.inst.tasks ++ r.spawned.toList⟩, none⟩

/-- A call of `handle_coordination_message` up to its first wait. -/
def call (c : Config X) (chan : ChannelId) (sender : X.PeerId) :
    CoordinationMessage X → Config X
  | .initiateKeygen executionId threshold totalParties timestamp =>
      match c.inst.orch.enterKeygen sender executionId threshold totalParties timestamp with
      | .error _ => c
      | .ok (o', i, ts) => ⟨⟨o', c.inst.tasks⟩, some (.keygen i threshold totalParties ts)⟩
  | .initiateSigning executionId message signers timestamp =>
      match c.inst.orch.enterSigning sender executionId message signers timestamp with
      | .error _ => c
      | .ok (o', i, ts) =>
        ⟨⟨o', c.inst.tasks⟩, if i ∈ signers then some (.signing i message signers ts) else none⟩
  | msg => c.reply (c.inst.orch.handleCoordinationMessage chan sender msg)

/-- The next lock acquisition of a waiting call. -/
def resume (c : Config X) (chan : ChannelId) : Pending X → Config X
  | .keygen i threshold totalParties ts =>
      c.reply (c.inst.orch.startKeygen chan i threshold totalParties ts)
  | .signing i message signers ts =>
      match c.inst.orch.readAuxInfo with
      | .error _ => { c with pending := none }
      | .ok a => { c with pending := some (.signingAux i a message signers ts) }
  | .signingAux i a message signers ts =>
      c.reply (c.inst.orch.startSigning chan i a message signers ts)

/-- No handler holds the state lock. -/
def stateFree (c : Config X) : Bool := c.pending.isNone

/-- No task holds the lock of the aux info. -/
def auxReadable (c : Config X) : Bool := c.inst.tasks.all fun t => !t.storing

/-- Nobody holds the lock of the aux info, for reading or for writing. -/
def auxFree (c : Config X) : Bool :=
  c.auxReadable && match c.pending with
    | some (.signingAux ..) => false
    | _ => true

/-- One step of the machine. -/
def step (c : Config X) : Label X → Option (Config X)
  | .call chan sender msg => if c.stateFree then some (c.call chan sender msg) else none
  | .resume chan =>
      match c.pending with
      | none => none
      | some (.signingAux i a m s ts) => some (c.resume chan (.signingAux i a m s ts))
      | some p => if c.auxReadable then some (c.resume chan p) else none
  | .finish i r =>
      (c.inst.tasks[i]?.bind (Task.finish r)).map fun t =>
        { c with inst := { c.inst with tasks := c.inst.tasks.set i t } }
  | .advance i =>
      (c.inst.tasks[i]?.bind (Task.advance c.stateFree c.auxFree c.inst.orch)).map fun (o, t) =>
        { c with inst := ⟨o, c.inst.tasks.set i t⟩ }

end Config

/-! ### What a call can do -/

namespace Config

open MPCOrchestrator

theorem step_call_eq_some {c c' : Config X} {chan : ChannelId} {sender : X.PeerId}
    {msg : CoordinationMessage X} : c.step (.call chan sender msg) = some c' ↔
      c.pending = none ∧ c' = c.call chan sender msg := by
  cases hp : c.pending <;> simp [step, stateFree, hp, eq_comm]

/-- A call is rejected without effect, or it passes its checks and makes its state write. -/
theorem call_cases {c : Config X} (hp : c.pending = none) (chan : ChannelId) (sender : X.PeerId)
    (msg : CoordinationMessage X) :
    (¬ c.inst.orch.Enters msg ∧ c.call chan sender msg = c) ∨
    (∃ eid ps pa timestamp i ts, msg = .initiateAux eid ps pa timestamp ∧
      c.inst.orch.AuxChecks pa timestamp i ts ∧
      c.call chan sender msg =
        ⟨⟨{ c.inst.orch with state := .auxGeneration sender eid, auxIncomingTx := some chan },
          c.inst.tasks ++ [.aux (.new i chan) auxTotalParties ts .running]⟩, none⟩) ∨
    (∃ eid t n timestamp i ts, msg = .initiateKeygen eid t n timestamp ∧
      c.inst.orch.KeygenChecks t n timestamp i ts ∧
      c.call chan sender msg =
        ⟨⟨{ c.inst.orch with state := .keygen sender eid t }, c.inst.tasks⟩,
          some (.keygen i t n ts)⟩) ∨
    (∃ eid m s timestamp i ts, msg = .initiateSigning eid m s timestamp ∧
      c.inst.orch.SigningChecks timestamp i ts ∧
      c.call chan sender msg =
        ⟨⟨{ c.inst.orch with state := .signing sender eid m s }, c.inst.tasks⟩,
          if i ∈ s then some (.signing i m s ts) else none⟩) := by
  obtain ⟨⟨o, tasks⟩, p⟩ := c
  obtain rfl : p = none := hp
  cases msg with
  | initiateAux eid ps pa timestamp =>
    simp only [call, handleCoordinationMessage]
    rcases handleInitiateAux_cases o chan sender eid pa timestamp with ⟨e, hn, he⟩ | ⟨i, ts, hc, he⟩
    · left
      simp [he, reply, Enters, hn]
    · refine .inr (.inl ⟨eid, ps, pa, timestamp, i, ts, rfl, hc, ?_⟩)
      simp [he, reply]
  | initiateKeygen eid t n timestamp =>
    cases he : o.enterKeygen sender eid t n timestamp with
    | error e =>
      refine .inl ⟨?_, by simp [call, he]⟩
      rintro ⟨i, ts, hc⟩
      rw [enterKeygen_eq_ok.2 ⟨hc, rfl⟩] at he
      cases he
    | ok r =>
      obtain ⟨o', i, ts⟩ := r
      obtain ⟨hc, rfl⟩ := enterKeygen_eq_ok.1 he
      exact .inr (.inr (.inl ⟨eid, t, n, timestamp, i, ts, rfl, hc, by simp [call, he]⟩))
  | initiateSigning eid m s timestamp =>
    cases he : o.enterSigning sender eid m s timestamp with
    | error e =>
      refine .inl ⟨?_, by simp [call, he]⟩
      rintro ⟨i, ts, hc⟩
      rw [enterSigning_eq_ok.2 ⟨hc, rfl⟩] at he
      cases he
    | ok r =>
      obtain ⟨o', i, ts⟩ := r
      obtain ⟨hc, rfl⟩ := enterSigning_eq_ok.1 he
      exact .inr (.inr (.inr ⟨eid, m, s, timestamp, i, ts, rfl, hc, by simp [call, he]⟩))
  | auxCompleted | keygenCompleted | signingCompleted | protocolFailed =>
    simp [call, handleCoordinationMessage, reply, Enters]

end Config

/-! ### What the steps of tasks and waiting calls can do -/

/-- The task as it was spawned. -/
def Task.spawned : Task X → Task X
  | .aux p n ts _ => .aux p n ts .running
  | .keygen p n t ts _ => .keygen p n t ts .running
  | .signing p s m ts _ => .signing p s m ts .running

theorem Task.finish_spawned {r : Outcome X} {t t' : Task X} (h : t.finish r = some t') :
    t'.spawned = t.spawned := by
  unfold Task.finish at h
  split at h <;> cases h <;> rfl

theorem map_spawned_set {tasks : List (Task X)} {i : ℕ} {t t' : Task X}
    (ht : tasks[i]? = some t) (h : t'.spawned = t.spawned) :
    (tasks.set i t').map Task.spawned = tasks.map Task.spawned := by
  obtain ⟨hi, rfl⟩ := List.getElem?_eq_some_iff.1 ht
  rw [List.map_set, h, ← List.getElem_map Task.spawned, List.set_getElem_self]
  simpa using hi

/-- The part of an orchestrator that is fixed at its construction. -/
def MPCOrchestrator.roster (o : MPCOrchestrator X) :
    List X.PeerId × HashMap X.PeerId PartyIndex × X.PeerId :=
  (o.participants, o.partyAssignments, o.localPeerId)

/-- A task that advances keeps its arguments. -/
theorem Task.advance_spawned {stateFree auxFree : Bool} {o o' : MPCOrchestrator X}
    {t t' : Task X} (h : t.advance stateFree auxFree o = some (o', t')) :
    t'.spawned = t.spawned ∧ o'.roster = o.roster := by
  unfold Task.advance at h
  split at h <;> (try split_ifs at h) <;> cases h <;> exact ⟨rfl, rfl⟩

namespace Config

open MPCOrchestrator

variable {c c' : Config X}

theorem step_finish_eq_some {i : ℕ} {r : Outcome X} : c.step (.finish i r) = some c' ↔
    ∃ t t', c.inst.tasks[i]? = some t ∧ t.finish r = some t' ∧
      c' = { c with inst := { c.inst with tasks := c.inst.tasks.set i t' } } := by
  simp only [step, Option.map_eq_some_iff, Option.bind_eq_some_iff]
  constructor
  · rintro ⟨t', ⟨t, ht, hf⟩, rfl⟩
    exact ⟨t, t', ht, hf, rfl⟩
  · rintro ⟨t, t', ht, hf, rfl⟩
    exact ⟨t', ⟨t, ht, hf⟩, rfl⟩

theorem step_advance_eq_some {i : ℕ} : c.step (.advance i) = some c' ↔
    ∃ t t' o, c.inst.tasks[i]? = some t ∧
      t.advance c.stateFree c.auxFree c.inst.orch = some (o, t') ∧
      c' = { c with inst := ⟨o, c.inst.tasks.set i t'⟩ } := by
  simp only [step, Option.map_eq_some_iff, Option.bind_eq_some_iff]
  constructor
  · rintro ⟨⟨o, t'⟩, ⟨t, ht, hf⟩, rfl⟩
    exact ⟨t, t', o, ht, hf, rfl⟩
  · rintro ⟨t, t', o, ht, hf, rfl⟩
    exact ⟨(o, t'), ⟨t, ht, hf⟩, rfl⟩

/-- A call that resumes ends for want of a cell, waits on, or ends by spawning its task. -/
theorem resume_cases {chan : ChannelId} (h : c.step (.resume chan) = some c') :
    (∃ p, c.pending = some p ∧
      (c.inst.orch.auxInfo = none ∨ ∃ i a m s ts, p = .signingAux i a m s ts) ∧
      c' = { c with pending := none }) ∨
    (∃ i a m s ts, c.pending = some (.signing i m s ts) ∧ c.inst.orch.auxInfo = some a ∧
      c' = { c with pending := some (.signingAux i a m s ts) }) ∨
    (∃ i t n ts a, c.pending = some (.keygen i t n ts) ∧ c.inst.orch.auxInfo = some a ∧
      c' = ⟨⟨{ c.inst.orch with keygenIncomingTx := some chan },
        c.inst.tasks ++ [.keygen (.new i chan a) n t ts .running]⟩, none⟩) ∨
    (∃ i a m s ts share, c.pending = some (.signingAux i a m s ts) ∧
      c.inst.orch.keyShare = some share ∧
      c' = ⟨⟨{ c.inst.orch with signingIncomingTx := some chan },
        c.inst.tasks ++ [.signing (.new i chan share a) s m ts .running]⟩, none⟩) := by
  obtain ⟨⟨o, tasks⟩, pend⟩ := c
  cases pend with
  | none => cases h
  | some p =>
    cases p with
    | keygen i t n ts =>
      simp only [step, Option.ite_none_right_eq_some, Option.some.injEq] at h
      obtain ⟨-, rfl⟩ := h
      cases ha : o.auxInfo with
      | none => exact .inl ⟨_, rfl, .inl rfl, by simp [resume, startKeygen, ha, reply]⟩
      | some a =>
        refine .inr (.inr (.inl ⟨i, t, n, ts, a, rfl, rfl, ?_⟩))
        simp [resume, startKeygen, ha, reply]
    | signing i m s ts =>
      simp only [step, Option.ite_none_right_eq_some, Option.some.injEq] at h
      obtain ⟨-, rfl⟩ := h
      cases ha : o.auxInfo with
      | none => exact .inl ⟨_, rfl, .inl rfl, by simp [resume, readAuxInfo, ha]⟩
      | some a => exact .inr (.inl ⟨i, a, m, s, ts, rfl, rfl, by simp [resume, readAuxInfo, ha]⟩)
    | signingAux i a m s ts =>
      simp only [step, Option.some.injEq] at h
      subst h
      cases hk : o.keyShare with
      | none =>
        exact .inl ⟨_, rfl, .inr ⟨_, _, _, _, _, rfl⟩, by simp [resume, startSigning, hk, reply]⟩
      | some share =>
        exact .inr (.inr (.inr ⟨i, a, m, s, ts, share, rfl, rfl,
          by simp [resume, startSigning, hk, reply]⟩))

/-- No step changes the participants, the assignment or the local peer. -/
theorem step_roster {l : Label X} (h : c.step l = some c') :
    c'.inst.orch.roster = c.inst.orch.roster := by
  cases l with
  | call chan sender msg =>
    obtain ⟨hp, rfl⟩ := step_call_eq_some.1 h
    rcases c.call_cases hp chan sender msg with ⟨-, he⟩ | ⟨_, _, _, _, _, _, -, -, he⟩ |
        ⟨_, _, _, _, _, _, -, -, he⟩ | ⟨_, _, _, _, _, _, -, -, he⟩ <;> rw [he] <;> rfl
  | resume chan =>
    rcases resume_cases h with ⟨_, -, -, rfl⟩ | ⟨_, _, _, _, _, -, -, rfl⟩ |
        ⟨_, _, _, _, _, -, -, rfl⟩ | ⟨_, _, _, _, _, _, -, -, rfl⟩ <;> rfl
  | finish i r =>
    obtain ⟨_, _, -, -, rfl⟩ := step_finish_eq_some.1 h
    rfl
  | advance i =>
    obtain ⟨_, _, _, -, ha, rfl⟩ := step_advance_eq_some.1 h
    exact (Task.advance_spawned ha).2

end Config

/-- The machine of one orchestrator instance, from its construction on. -/
def orchestratorMachine (X : Platform) : Machine (Config X) (Label X) where
  init c := ∃ p ps m, c = ⟨⟨.new p ps m, []⟩, none⟩
  step := Config.step

/-! ### Calls that are not interleaved -/

/-- A call that finds the lock of the aux info free and whose lock acquisitions follow one another
has the effect of the handler. -/
theorem run_call_uninterrupted {c : Config X} (hp : c.pending = none) (ha : c.auxReadable = true)
    (chan : ChannelId) (sender : X.PeerId) (msg : CoordinationMessage X) :
    ∃ n, (orchestratorMachine X).run c
        (.call chan sender msg :: List.replicate n (.resume chan)) =
      some (c.reply (c.inst.orch.handleCoordinationMessage chan sender msg)) := by
  obtain ⟨⟨o, tasks⟩, p⟩ := c
  obtain rfl : p = none := hp
  have step_call : ∀ msg, (orchestratorMachine X).step ⟨⟨o, tasks⟩, none⟩ (.call chan sender msg) =
      some (Config.call ⟨⟨o, tasks⟩, none⟩ chan sender msg) := fun _ => rfl
  -- the tasks are those of `c` until the handler spawns one, so the lock stays free
  have step_resume : ∀ o' pend, (∀ i a m s ts, pend ≠ .signingAux i a m s ts) →
      (orchestratorMachine X).step ⟨⟨o', tasks⟩, some pend⟩ (.resume chan) =
        some (Config.resume ⟨⟨o', tasks⟩, some pend⟩ chan pend) := by
    intro o' pend hpend
    have ha' : Config.auxReadable ⟨⟨o', tasks⟩, some pend⟩ = true := ha
    cases pend with
    | signingAux i a m s ts => exact absurd rfl (hpend i a m s ts)
    | keygen => exact if_pos ha'
    | signing => exact if_pos ha'
  cases msg with
  | initiateKeygen eid t n timestamp =>
    simp only [Machine.run_cons, step_call, Option.bind_some, Config.call,
      MPCOrchestrator.handleCoordinationMessage, MPCOrchestrator.handleInitiateKeygen]
    cases o.enterKeygen sender eid t n timestamp with
    | error e => exact ⟨0, by simp [Config.reply]⟩
    | ok r =>
      refine ⟨1, Machine.run_singleton.2 ?_⟩
      exact step_resume _ _ (by simp)
  | initiateSigning eid m s timestamp =>
    simp only [Machine.run_cons, step_call, Option.bind_some, Config.call,
      MPCOrchestrator.handleCoordinationMessage, MPCOrchestrator.handleInitiateSigning]
    cases o.enterSigning sender eid m s timestamp with
    | error e => exact ⟨0, by simp [Config.reply]⟩
    | ok r =>
      obtain ⟨o', i, ts⟩ := r
      dsimp only
      split_ifs with hi
      · cases ha' : o'.readAuxInfo with
        | error e =>
          refine ⟨1, Machine.run_singleton.2 ?_⟩
          rw [step_resume _ _ (by simp)]
          simp [Config.resume, Config.reply, ha']
        | ok a =>
          refine ⟨2, Machine.run_cons_eq_some.2 ⟨_, step_resume _ _ (by simp), ?_⟩⟩
          refine Machine.run_singleton.2 ?_
          simp [Config.resume, ha', orchestratorMachine, Config.step, Config.reply]
      · exact ⟨0, by simp [Config.reply]⟩
  | initiateAux => exact ⟨0, rfl⟩
  | auxCompleted | keygenCompleted | signingCompleted | protocolFailed => exact ⟨0, rfl⟩

end P2pMpc
