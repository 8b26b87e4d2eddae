import P2pMpc.Lib.FifoLock
import P2pMpc.RpcGuards

/-!
# The lock on the orchestrator while a call waits for its signature

The event loop and the RPC calls share the orchestrator slot under one tokio `RwLock`, which grants
in the order of arrival. `initiate_signing` works under the write lock, drops it, and then waits for
the signature under a read lock, for up to a minute. The event loop needs the lock for almost every
message: the write lock for coordination messages and to install an orchestrator, the read lock for
protocol messages. When it has to wait, it carries no protocol message, so none of those the
signature depends on.

What runs under the lock runs here in one piece, as in `Node`. The cells of the sessions have locks
of their own; `takeMessage` is the part of a message's handling before the orchestrator's lock.
-/

namespace P2pMpc

open StateMachine FifoLock FifoLock.Line

variable {X : Platform}

/-! ### What the event loop does under the lock -/

/-- What remains of a message once the event loop asks for the lock. -/
inductive LoopWork (X : Platform)
  | install (assignments : HashMap String ℕ)
  | coordinate (source : X.PeerId) (msg : CoordinationMessage X)
  | forward (φ : Phase) (msg : MpcAuxMessage X)

/-- `read()` for protocol messages, `write()` for everything else. -/
def LoopWork.mode : LoopWork X → Mode
  | .install _ => .write
  | .coordinate _ _ => .write
  | .forward _ _ => .read

namespace Node

/-- The handling of a gossip message up to its request for the lock, if it makes one. -/
def takeMessage (n : Node X) (source : Option X.PeerId) (published : Bool) (now : UInt64)
    (g : Gossip X) : Node X × Option (LoopWork X) :=
  if source = some n.id then (n, none)
  else
    match g with
    | .assignment (.request coordinatorId assignments sessionId) =>
        if X.peerToString n.id ∈ assignments then
          (n.adopt now coordinatorId assignments sessionId,
            if coordinatorId = X.peerToString n.id then none
            else if published then some (.install assignments) else none)
        else (n, none)
    | .assignment (.acceptance peerId _ sessionId) =>
        match n.sessions.lookup sessionId with
        | none => (n, none)
        | some session =>
          (n.record sessionId (session.accept peerId),
            if (session.accept peerId).allAccepted then some (.install session.assignments)
            else none)
    | .coordination msg => (n, source.map fun p => .coordinate p msg)
    | .protocol φ msg => (n, some (.forward φ msg))
    | .other _ _ => (n, none)

/-- The handling of the message under the lock: the node, and what is forwarded to a party. -/
def underLock (n : Node X) : LoopWork X → Node X × Option (Forwarded X)
  | .install assignments => (n.install assignments, none)
  | .coordinate source msg => (n.onCoordination (some source) msg, none)
  | .forward φ msg => (n, n.onProtocol φ msg)

/-- The two parts of the handling, for a message that needs the lock and for one that does not. -/
def handleMessage (n : Node X) (source : Option X.PeerId) (published : Bool) (now : UInt64)
    (g : Gossip X) : Node X × Option (Forwarded X) :=
  match n.takeMessage source published now g with
  | (n', none) => (n', none)
  | (n', some w) => n'.underLock w

/-- Without anybody between them they are the handling in one piece. -/
theorem handleMessage_eq (n : Node X) (source : Option X.PeerId) (published : Bool) (now : UInt64)
    (g : Gossip X) : n.handleMessage source published now g =
      ((n.onMessage source published now g).node,
        (n.onMessage source published now g).forwarded) := by
  unfold handleMessage takeMessage onMessage
  by_cases hs : source = some n.id
  · rw [if_pos hs, if_pos hs]
  · rw [if_neg hs, if_neg hs]
    cases g with
    | assignment msg =>
      cases msg with
      | request c A sid =>
        rcases n.handleRequest_cases published now c A sid with
          ⟨hmem, he⟩ | ⟨i, hi, hcase⟩
        · simp [hmem, he]
        · have hmem : X.peerToString n.id ∈ A := AList.lookup_isSome.1 (by simp [hi])
          rcases hcase with ⟨hor, he⟩ | ⟨hc, rfl, he⟩
          · have hwork : (if c = X.peerToString n.id then none
                else if published then some (.install A) else none) =
                  (none : Option (LoopWork X)) := by
              rcases hor with hc | hp
              · exact if_pos hc
              · simp [hp]
            simp only [if_pos hmem, hwork, he]
          · simp only [if_pos hmem, if_neg hc, if_true, underLock, he]
      | acceptance p i sid =>
        rcases n.handleAcceptance_cases published now p i sid with
          ⟨hs, he⟩ | ⟨session, hs, ⟨ha, he⟩ | ⟨ha, he⟩⟩ <;> simp [hs, he]
        · simp [ha]
        · simp [ha, underLock]
    | coordination msg =>
      cases source with
      | none => rfl
      | some p => rfl
    | protocol φ msg => rfl
    | other topic data => rfl

end Node

/-! ### Calls -/

/-- Where an initiating call stands: not made, or returned; before its work under the write lock;
past it with the lock dropped; or at its wait for the signature, from its request for the read lock
on. -/
inductive CallPc
  | idle
  | entering (c : InitiateCall)
  | dropped
  | waiting

/-- A signing call that has succeeded so far goes on to wait; every other call returns. -/
def InitiateCall.after (c : InitiateCall) (r : RpcReply X) : CallPc :=
  match c, r.result with
  | .signing _ _ _, .ok _ => .dropped
  | _, _ => .idle

/-- `wait_for_signature` finds a state in which it returns before its timeout. -/
def Node.signatureDecided (n : Node X) : Bool :=
  match n.mpcOrchestrator with
  | none => true
  | some inst => match inst.orch.state with
    | .signingCompleted _ => true
    | .failed _ _ => true
    | _ => false

/-- The installed orchestrator is in `Signing`. -/
def Node.Signing (n : Node X) : Prop :=
  ∃ inst q e m s, n.mpcOrchestrator = some inst ∧ inst.orch.state = .signing q e m s

/-- The actions that do not use the lock. -/
def Action.lockFree : Action X → Bool
  | .initiateAuxGen _ => false
  | .initiateKeygen _ _ => false
  | .initiateSigning _ _ _ => false
  | _ => true

/-- The swarm events, which the event loop handles. -/
def Action.ofLoop : Action X → Bool
  | .identify _ => true
  | .connectionClosed _ => true
  | _ => false

/-! ### The node with its lock -/

inductive Actor
  | loop
  | call (i : ℕ)
  deriving DecidableEq

/-- A node, the line of requests for its lock, what the event loop has to do under it, and where
the calls stand. -/
structure LockedNode (X : Platform) where
  node : Node X
  line : Line Actor
  loop : Option (LoopWork X)
  calls : ℕ → CallPc

/-- The steps: the event loop takes a message, or does its work under the lock; something happens
that needs no lock; a call is made, does its work under the write lock, asks for the read lock, or
returns from its wait, which it may do at any time by its timeout. -/
inductive LockLabel (X : Platform)
  | take (source : Option X.PeerId) (published : Bool) (now : UInt64) (g : Gossip X)
  | handle
  | act (a : Action X)
  | call (i : ℕ) (c : InitiateCall)
  | enter (i : ℕ)
  | await (i : ℕ)
  | leave (i : ℕ) (timedOut : Bool)

namespace LockedNode

/-- A node that has just started. -/
def new (id : X.PeerId) : LockedNode X := ⟨.new id, [], none, fun _ => .idle⟩

/-- The state in which the call `i` stands at `pc`. -/
def setCall (s : LockedNode X) (i : ℕ) (pc : CallPc) : LockedNode X :=
  { s with calls := Function.update s.calls i pc }

/-- One step. -/
def step (s : LockedNode X) : LockLabel X → Option (LockedNode X)
  | .take source published now g =>
      match s.loop with
      | some _ => none
      | none =>
        match s.node.takeMessage source published now g with
        | (n, none) => some { s with node := n }
        | (n, some w) =>
          some { s with node := n, loop := some w, line := s.line.request .loop w.mode }
  | .handle =>
      match s.loop with
      | none => none
      | some w =>
        if s.line.Holds .loop then
          some { s with
            node := (s.node.underLock w).1
            loop := none
            line := s.line.release .loop }
        else none
  | .act a =>
      if a.lockFree = true ∧ (a.ofLoop = true → s.loop.isNone = true) then
        (s.node.act a).map fun r => { s with node := r.1 }
      else none
  | .call i c =>
      match s.calls i with
      | .idle =>
        some { s.setCall i (.entering c) with line := s.line.request (.call i) .write }
      | _ => none
  | .enter i =>
      match s.calls i with
      | .entering c =>
        if s.line.Holds (.call i) then
          some { s.setCall i (c.after (s.node.initiateCall c)) with
            node := (s.node.initiateCall c).node
            line := s.line.release (.call i) }
        else none
      | _ => none
  | .await i =>
      match s.calls i with
      | .dropped => some { s.setCall i .waiting with line := s.line.request (.call i) .read }
      | _ => none
  | .leave i timedOut =>
      match s.calls i with
      | .waiting =>
        if s.line.Holds (.call i) ∧ (timedOut = true ∨ s.node.signatureDecided = true) then
          some { s.setCall i .idle with line := s.line.release (.call i) }
        else none
      | _ => none

/-- The event loop is queued on the lock while a signing call holds it in its wait and the
orchestrator is still in `Signing`. -/
def Blocked (s : LockedNode X) : Prop :=
  s.line.Waits .loop ∧ ∃ i, s.calls i = .waiting ∧ s.line.Holds (.call i) ∧ s.node.Signing

/-- The request for the lock that a step makes. -/
def asks (s : LockedNode X) : LockLabel X → Option (Actor × Mode)
  | .take source published now g =>
      (s.node.takeMessage source published now g).2.map fun w => (.loop, w.mode)
  | .call i _ => some (.call i, .write)
  | .await i => some (.call i, .read)
  | _ => none

end LockedNode

/-- A node with its lock, from its start on. -/
def lockMachine (X : Platform) : Machine (LockedNode X) (LockLabel X) where
  init s := ∃ id, s = .new id
  step := LockedNode.step

/-! ### The line of a run -/

/-- The request that a call has in the line. -/
def CallPc.mode : CallPc → Option Mode
  | .entering _ => some .write
  | .waiting => some .read
  | _ => none

theorem CallPc.eq_waiting {pc : CallPc} (h : pc.mode = some .read) : pc = .waiting := by
  cases pc <;> first | rfl | cases h

theorem InitiateCall.mode_after (c : InitiateCall) (r : RpcReply X) : (c.after r).mode = none := by
  unfold InitiateCall.after
  split <;> rfl

namespace LockedNode

/-- The request that an actor has in the line. -/
def requested (s : LockedNode X) : Actor → Option Mode
  | .loop => s.loop.map LoopWork.mode
  | .call i => (s.calls i).mode

variable {s t : LockedNode X} {l : LockLabel X} {i : ℕ}

theorem requested_of_calls (pc : CallPc) (hloop : t.loop = s.loop)
    (hcalls : t.calls = Function.update s.calls i pc) :
    t.requested = Function.update s.requested (.call i) pc.mode := by
  funext a
  cases a with
  | loop => simp [requested, hloop]
  | call j =>
    by_cases hj : j = i
    · subst hj
      simp [requested, hcalls]
    · simp [requested, hcalls, hj]

theorem requested_of_loop {w : Option (LoopWork X)} (hloop : t.loop = w)
    (hcalls : t.calls = s.calls) :
    t.requested = Function.update s.requested .loop (w.map LoopWork.mode) := by
  funext a
  cases a with
  | loop => simp [requested, hloop]
  | call j => simp [requested, hcalls]

/-- A step leaves the line alone, puts a request at its end, or takes a granted one out of it. A
call that waits for its signature is only taken out as it returns. -/
theorem step_line (h : s.step l = some t) :
    (s.asks l = none ∧ t.line = s.line ∧ t.requested = s.requested) ∨
    (∃ a m, s.asks l = some (a, m) ∧ s.requested a = none ∧ t.line = s.line.request a m ∧
      t.requested = Function.update s.requested a (some m)) ∨
    ∃ a, s.asks l = none ∧ s.line.Holds a ∧ t.line = s.line.release a ∧
      t.requested = Function.update s.requested a none ∧
      ∀ i, a = .call i → s.calls i = .waiting → ∃ timedOut, l = .leave i timedOut := by
  cases l with
  | take source published now g =>
    cases hloop : s.loop with
    | some w => simp [step, hloop] at h
    | none =>
      simp only [step, hloop] at h
      have hasks : s.asks (.take source published now g) =
        (s.node.takeMessage source published now g).2.map fun w => (.loop, w.mode) := rfl
      generalize s.node.takeMessage source published now g = r at h hasks
      obtain ⟨n, w⟩ := r
      cases w with
      | none =>
        obtain rfl := Option.some.inj h
        refine .inl ⟨hasks, rfl, ?_⟩
        funext a
        cases a with
        | loop => simp [requested, hloop]
        | call i => rfl
      | some w =>
        obtain rfl := Option.some.inj h
        exact .inr (.inl ⟨.loop, w.mode, hasks, by simp [requested, hloop], rfl,
          requested_of_loop rfl rfl⟩)
  | handle =>
    cases hloop : s.loop with
    | none => simp [step, hloop] at h
    | some w =>
      simp only [step, hloop] at h
      obtain ⟨hholds, h⟩ := Option.ite_none_right_eq_some.1 h
      obtain rfl := Option.some.inj h
      exact .inr (.inr ⟨.loop, rfl, hholds, rfl, requested_of_loop rfl rfl, by rintro _ ⟨⟩⟩)
  | act a =>
    obtain ⟨-, h⟩ := Option.ite_none_right_eq_some.1 h
    obtain ⟨r, -, rfl⟩ := Option.map_eq_some_iff.1 h
    exact .inl ⟨rfl, rfl, rfl⟩
  | call i c =>
    cases hpc : s.calls i with
    | idle =>
      simp only [step, hpc] at h
      obtain rfl := Option.some.inj h
      exact .inr (.inl ⟨.call i, .write, rfl, by simp [requested, hpc, CallPc.mode], rfl,
        requested_of_calls (.entering c) rfl rfl⟩)
    | entering | dropped | waiting => simp [step, hpc] at h
  | enter i =>
    cases hpc : s.calls i with
    | entering c =>
      simp only [step, hpc] at h
      obtain ⟨hholds, h⟩ := Option.ite_none_right_eq_some.1 h
      obtain rfl := Option.some.inj h
      refine .inr (.inr ⟨.call i, rfl, hholds, rfl, ?_, ?_⟩)
      · rw [← c.mode_after (s.node.initiateCall c)]
        exact requested_of_calls _ rfl rfl
      · rintro _ ⟨⟩ hwait
        rw [hpc] at hwait
        cases hwait
    | idle | dropped | waiting => simp [step, hpc] at h
  | await i =>
    cases hpc : s.calls i with
    | dropped =>
      simp only [step, hpc] at h
      obtain rfl := Option.some.inj h
      exact .inr (.inl ⟨.call i, .read, rfl, by simp [requested, hpc, CallPc.mode], rfl,
        requested_of_calls .waiting rfl rfl⟩)
    | idle | entering | waiting => simp [step, hpc] at h
  | leave i timedOut =>
    cases hpc : s.calls i with
    | waiting =>
      simp only [step, hpc] at h
      obtain ⟨⟨hholds, -⟩, h⟩ := Option.ite_none_right_eq_some.1 h
      obtain rfl := Option.some.inj h
      refine .inr (.inr ⟨.call i, rfl, hholds, rfl, requested_of_calls .idle rfl rfl, ?_⟩)
      rintro _ ⟨⟩ -
      exact ⟨timedOut, rfl⟩
    | idle | entering | dropped => simp [step, hpc] at h

/-- The line holds the requests of the event loop and of the calls, each once. -/
structure Coherent (s : LockedNode X) : Prop where
  distinct : s.line.Distinct
  mem_iff : ∀ a m, (a, m) ∈ s.line ↔ s.requested a = some m

theorem Coherent.notMem (hs : s.Coherent) {a : Actor} (h : s.requested a = none) :
    a ∉ s.line.map Prod.fst := by
  intro ha
  obtain ⟨⟨a, m⟩, hm, rfl⟩ := List.mem_map.1 ha
  rw [hs.mem_iff, h] at hm
  cases hm

theorem Coherent.step (hs : s.Coherent) (h : s.step l = some t) : t.Coherent := by
  rcases step_line h with ⟨-, hline, hreq⟩ | ⟨a, m, -, hnone, hline, hreq⟩ |
      ⟨a, -, -, hline, hreq, -⟩
  · exact ⟨by rw [hline]; exact hs.distinct, by rw [hline, hreq]; exact hs.mem_iff⟩
  · refine ⟨by rw [hline]; exact hs.distinct.request (hs.notMem hnone) m, fun b m' => ?_⟩
    rw [hline, hreq, Line.request, List.mem_append, hs.mem_iff, List.mem_singleton,
      Function.update_apply, Prod.mk.injEq]
    split_ifs with hb
    · subst hb
      simp [hnone, eq_comm]
    · simp [hb]
  · refine ⟨by rw [hline]; exact hs.distinct.release a, fun b m' => ?_⟩
    rw [hline, hreq, Line.release, List.mem_filter, hs.mem_iff, Function.update_apply]
    split_ifs with hb
    · simp [hb]
    · simp [hb]

theorem Coherent.of_init (h : (lockMachine X).init s) : s.Coherent := by
  obtain ⟨id, rfl⟩ := h
  refine ⟨List.nodup_nil, fun a m => ?_⟩
  cases a <;> simp [new, requested, CallPc.mode]

/-! ### What keeps the event loop waiting -/

/-- The step does not have the event loop ask for the lock when an initiate_signing call has asked
for the read lock or holds it, unless it asks for the read lock too and no call has asked for the
write lock since. -/
def Clear (s : LockedNode X) (l : LockLabel X) : Prop :=
  ∀ m, s.asks l = some (.loop, m) → ∀ i, ¬ s.line.WouldObstruct (.call i) m

/-- No call obstructs the event loop. -/
def Unobstructed (s : LockedNode X) : Prop := ∀ i, ¬ s.line.Obstructs (.call i) .loop

theorem Unobstructed.step (hu : s.Unobstructed) (hc : s.Clear l) (h : s.step l = some t) :
    t.Unobstructed := by
  intro i hobs
  rcases step_line h with ⟨-, hline, -⟩ | ⟨a, m, hasks, -, hline, -⟩ | ⟨a, -, -, hline, -, -⟩ <;>
    rw [hline] at hobs
  · exact hu i hobs
  · rcases obstructs_request.1 hobs with hold | ⟨rfl, hwould⟩
    · exact hu i hold
    · exact hc m hasks i hwould
  · exact hu i hobs.of_release

/-- The lock that a call holds in its wait is the read lock. -/
theorem Coherent.read_granted (hs : s.Coherent) {i : ℕ} (hwait : s.calls i = .waiting)
    (hholds : s.line.Holds (.call i)) : (.call i, .read) ∈ s.line.granted := by
  obtain ⟨⟨a, m⟩, hm, rfl⟩ := List.mem_map.1 hholds
  have hreq := (hs.mem_iff _ m).1 (s.line.granted_initial.subset hm)
  have hread : s.requested (.call i) = some .read := by simp [requested, hwait, CallPc.mode]
  rw [hread] at hreq
  obtain rfl := Option.some.inj hreq
  exact hm

theorem Unobstructed.not_blocked (hu : s.Unobstructed) (hs : s.Coherent) : ¬ s.Blocked := by
  rintro ⟨hwaits, i, hwait, hholds, -⟩
  exact hu i (obstructs_of_waits (hs.read_granted hwait hholds) hwaits)

/-- A call that obstructs the event loop does so until it returns. -/
theorem obstructs_step (hs : s.Coherent) (hobs : s.line.Obstructs (.call i) .loop)
    (h : s.step l = some t) (hl : ∀ timedOut, l ≠ .leave i timedOut) :
    t.line.Obstructs (.call i) .loop := by
  rcases step_line h with ⟨-, hline, -⟩ | ⟨a, m, -, -, hline, -⟩ |
      ⟨a, -, hholds, hline, -, hleave⟩ <;> rw [hline]
  · exact hobs
  · exact obstructs_request.2 (.inl hobs)
  · refine hobs.release hs.distinct hholds ?_ ?_
    · -- a call has its read request in the line only during its wait
      rintro rfl
      have hread : (Actor.call i, Mode.read) ∈ s.line := by
        obtain ⟨pre, mid, post, m, hline', -⟩ := hobs
        rw [hline']
        simp
      obtain ⟨timedOut, rfl⟩ :=
        hleave i rfl (CallPc.eq_waiting ((hs.mem_iff (.call i) .read).1 hread))
      exact hl timedOut rfl
    · rintro rfl
      exact (hobs.waits hs.distinct).2 hholds

end LockedNode

/-- In every run of a node with its lock: if every step is clear, the event loop is at no time
queued behind a call that waits for its signature. And a step that is not, on account of a call,
has the event loop queued until that call has returned: blocked in every state in which the call
holds the lock and the orchestrator is in `Signing`. -/
theorem signing_wait_blocks_iff {s t : LockedNode X} {ls : List (LockLabel X)}
    (hs : (lockMachine X).init s) (hr : (lockMachine X).run s ls = some t) :
    ((lockMachine X).Meets LockedNode.Clear s ls → ¬ t.Blocked) ∧
    ∀ pre l post u m i, ls = pre ++ l :: post → (lockMachine X).run s pre = some u →
      u.asks l = some (.loop, m) → u.line.WouldObstruct (.call i) m →
      (∀ l' ∈ post, ∀ timedOut, l' ≠ .leave i timedOut) →
        t.line.Waits .loop ∧ (t.line.Holds (.call i) → t.node.Signing → t.Blocked) := by
  have hcoherent : ∀ {pre u}, (lockMachine X).run s pre = some u → u.Coherent := fun hu =>
    Machine.run_preserves (M := lockMachine X) (I := LockedNode.Coherent)
      (fun _ _ _ hs hl => hs.step hl) (.of_init hs) hu
  constructor
  · intro hclear
    -- who does not obstruct the event loop as it asks for the lock never will
    have hu : t.Unobstructed := by
      refine Machine.run_preserves_of_meets (M := lockMachine X) (I := LockedNode.Unobstructed)
        (fun _ _ _ hu hc hl => hu.step hc hl) ?_ hclear hr
      rintro i ⟨pre, mid, post, m, hline, -⟩
      obtain ⟨id, rfl⟩ := hs
      simp [LockedNode.new] at hline
    exact hu.not_blocked (hcoherent hr)
  · rintro pre l post u m i rfl hu hasks hwould hpost
    obtain ⟨u', hu', hrest⟩ := Machine.run_append_eq_some.1 hr
    obtain rfl := Option.some.inj (hu.symm.trans hu')
    obtain ⟨v, hv, hvt⟩ := Machine.run_cons_eq_some.1 hrest
    have hobs : v.line.Obstructs (.call i) .loop := by
      rcases LockedNode.step_line hv with ⟨hnone, -, -⟩ | ⟨a, m', hsome, -, hline, -⟩ |
          ⟨a, hnone, -, -, -, -⟩
      · rw [hasks] at hnone
        cases hnone
      · rw [hasks] at hsome
        cases hsome
        rw [hline]
        exact obstructs_request.2 (.inr ⟨rfl, hwould⟩)
      · rw [hasks] at hnone
        cases hnone
    -- from there on only the return of the call can end the obstruction
    have hlast : t.Coherent ∧ t.line.Obstructs (.call i) .loop := by
      refine Machine.run_preserves_of_forall (M := lockMachine X)
        (I := fun w => w.Coherent ∧ w.line.Obstructs (.call i) .loop)
        (G := fun l' => ∀ timedOut, l' ≠ .leave i timedOut) ?_ ⟨(hcoherent hu).step hv, hobs⟩
        hpost hvt
      rintro w l' w' ⟨hw, hobs⟩ hl' hstep
      exact ⟨hw.step hstep, LockedNode.obstructs_step hw hobs hstep hl'⟩
    have hwaits := hlast.2.waits hlast.1.distinct
    refine ⟨hwaits, fun hholds hsigning => ⟨hwaits, i, ?_, hholds, hsigning⟩⟩
    obtain ⟨pre', mid, post', m', hline, -⟩ := hlast.2
    apply CallPc.eq_waiting
    exact (hlast.1.mem_iff (.call i) .read).1 (by rw [hline]; simp)

/-! ### A coordination message during the wait -/

namespace LockedNode

/-- Only a message that is taken can have the event loop ask for the lock. -/
theorem clear_of_not_take {l : LockLabel X} (h : ∀ source published now g, l ≠ .take source
    published now g) (s : LockedNode X) : s.Clear l := by
  intro m hasks
  cases l with
  | take source published now g => exact absurd rfl (h source published now g)
  | handle | act | call | enter | await | leave => cases hasks

theorem clear_of_line_nil {s : LockedNode X} (h : s.line = []) (l : LockLabel X) : s.Clear l := by
  rintro m - i ⟨pre, post, hline, -⟩
  simp [h] at hline

/-- A protocol message may come while a call waits with nobody behind it. -/
theorem clear_of_protocol {s : LockedNode X} {i : ℕ} (h : s.line = [(.call i, .read)])
    (source : Option X.PeerId) (published : Bool) (now : UInt64) (φ : Phase)
    (msg : MpcAuxMessage X) : s.Clear (.take source published now (.protocol φ msg)) := by
  rintro m hasks j ⟨pre, post, hline, hwrite⟩
  have hread : m = .read := by
    simp only [asks, Node.takeMessage] at hasks
    split at hasks <;> cases hasks
    rfl
  have hpost : post = [] := by
    rw [h] at hline
    cases pre with
    | nil => exact (List.cons.inj hline).2.symm
    | cons r pre => simp at hline
  rcases hwrite with rfl | ⟨r, hr, -⟩
  · cases hread
  · rw [hpost] at hr
    cases hr

end LockedNode

namespace WaitRun

def assignments : HashMap String ℕ := .ofEntries [("a", 0), ("b", 1), ("c", 2)]

def request : LockLabel .plain :=
  .take (some "a") true 0 (.assignment (.request "a" assignments "s"))

/-- The node `b` installs the orchestrator of the Request, completes the aux generation and the
keygen, starts a signing, and waits for the signature. -/
def work : List (LockLabel .plain) :=
  [.handle, .call 0 (.auxGen ⟨0⟩), .enter 0, .act (.finish 0 (.aux (.ok (1 : ℕ)))),
    .act (.advance 0), .act (.advance 0), .call 0 (.keygen 2 ⟨0⟩), .enter 0,
    .act (.finish 1 (.keygen (.ok [2]))), .act (.advance 1), .act (.advance 1),
    .call 0 (.signing "m" [0, 1] ⟨0⟩), .enter 0, .await 0]

/-- The node `a` starts a signing too. -/
def coordination : LockLabel .plain :=
  .take (some "a") true 0 (.coordination (.initiateSigning [1] [2] [0, 1] ⟨0⟩))

/-- The party of `a` sends a message of the signing. -/
def protocol : LockLabel .plain :=
  .take (some "a") true 0 (.protocol .signing ⟨"a", none, "broadcast", [3]⟩)

end WaitRun

/-- The message of `a` has the event loop of `b` queue behind the call that waits for the signature,
whose party still runs. -/
theorem coordination_message_blocks : ∃ t : LockedNode .plain, ∃ inst : Instance .plain,
    (lockMachine .plain).init (.new "b") ∧
      (lockMachine .plain).run (.new "b") (WaitRun.request :: (WaitRun.work ++
        [WaitRun.coordination])) = some t ∧
      t.Blocked ∧ t.node.mpcOrchestrator = some inst ∧
      (inst.tasks.any fun task => task.runs .signing) = true :=
  ⟨_, _, ⟨"b", rfl⟩, rfl, ⟨by decide, 0, rfl, by decide, _, _, _, _, _, rfl, rfl⟩, rfl, rfl⟩

/-- A message of the signing is forwarded during the wait. -/
theorem protocol_message_passes : ∃ t : LockedNode .plain,
    (lockMachine .plain).run (.new "b") (WaitRun.request :: (WaitRun.work ++
      [WaitRun.protocol, .handle])) = some t ∧ t.calls 0 = .waiting ∧ ¬ t.Blocked := by
  have hnot : ∀ l ∈ WaitRun.work ++ [.handle], ∀ source published now g,
      l ≠ .take source published now g := by
    intro l hl source published now g he
    subst he
    simp [WaitRun.work] at hl
  have hwork : ∀ s : LockedNode .plain, (lockMachine .plain).Meets LockedNode.Clear s
      WaitRun.work := fun s =>
    (Machine.meets_of_forall_mem (fun l hl => hnot l (List.mem_append_left _ hl)) s).mono
      fun s _ hl => LockedNode.clear_of_not_take hl s
  have hclear : (lockMachine .plain).Meets LockedNode.Clear (.new "b")
      (WaitRun.request :: (WaitRun.work ++ [WaitRun.protocol, .handle])) := by
    refine .cons (LockedNode.clear_of_line_nil rfl _) rfl ((hwork _).append rfl ?_)
    refine .cons (LockedNode.clear_of_protocol rfl _ _ _ _ _) rfl ⟨?_, fun _ _ => trivial⟩
    exact LockedNode.clear_of_not_take (hnot _ (by simp)) _
  exact ⟨_, rfl, rfl, (signing_wait_blocks_iff ⟨"b", rfl⟩ rfl).1 hclear⟩

end P2pMpc
