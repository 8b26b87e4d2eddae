import P2pMpc.Executions

/-!
# Which tasks a node spawns

A node spawns a task when the installed orchestrator accepts an Initiate message, and in no other
way; it never drops one. `Node.step_instances` says what a step does to the orchestrators of a node,
replaced ones included, and to the tasks they have spawned.
-/

namespace P2pMpc

open StateMachine MPCOrchestrator

variable {X : Platform}

/-- The handler accepts the message and spawns the task. -/
inductive MPCOrchestrator.Starts (o : MPCOrchestrator X) (chan : ChannelId) :
    CoordinationMessage X → Task X → Prop
  | aux (eid ps pa timestamp i ts) (hc : o.AuxChecks pa timestamp i ts) :
      Starts o chan (.initiateAux eid ps pa timestamp)
        (.aux (.new i chan) auxTotalParties ts .running)
  | keygen (eid t n timestamp i ts a) (hc : o.KeygenChecks t n timestamp i ts)
      (ha : o.auxInfo = some a) :
      Starts o chan (.initiateKeygen eid t n timestamp)
        (.keygen (.new i chan a) n t ts .running)
  | signing (eid m s timestamp i ts a share) (hc : o.SigningChecks timestamp i ts) (hi : i ∈ s)
      (ha : o.auxInfo = some a) (hk : o.keyShare = some share) :
      Starts o chan (.initiateSigning eid m s timestamp)
        (.signing (.new i chan share a) s m ts .running)

theorem MPCOrchestrator.starts_of_spawned {o : MPCOrchestrator X} {chan : ChannelId}
    {sender : X.PeerId} {msg : CoordinationMessage X} {t : Task X}
    (h : (o.handleCoordinationMessage chan sender msg).spawned = some t) :
    o.Starts chan msg t := by
  cases msg with
  | initiateAux eid ps pa timestamp =>
    rw [handleCoordinationMessage] at h
    rcases handleInitiateAux_cases o chan sender eid pa timestamp with
      ⟨_, -, he⟩ | ⟨i, ts, hc, he⟩ <;> rw [he] at h
    · cases h
    · cases h
      exact .aux eid ps pa timestamp i ts hc
  | initiateKeygen eid t n timestamp =>
    rw [handleCoordinationMessage] at h
    rcases handleInitiateKeygen_cases o chan sender eid t n timestamp with
      ⟨_, -, he⟩ | ⟨i, ts, hc, ⟨-, he⟩ | ⟨a, ha, he⟩⟩ <;> rw [he] at h
    · cases h
    · cases h
    · cases h
      exact .keygen eid t n timestamp i ts a hc ha
  | initiateSigning eid m s timestamp =>
    rw [handleCoordinationMessage] at h
    rcases handleInitiateSigning_cases o chan sender eid m s timestamp with
      ⟨_, -, he⟩ | ⟨i, ts, hc, ⟨-, he⟩ | ⟨-, -, he⟩ | ⟨hi, a, share, ha, hk, he⟩⟩ <;> rw [he] at h
    · cases h
    · cases h
    · cases h
    · cases h
      exact .signing eid m s timestamp i ts a share hc hi ha hk
  | auxCompleted | keygenCompleted | signingCompleted | protocolFailed => cases h

/-- A task as it was spawned starts with its protocol run before it. -/
theorem MPCOrchestrator.Starts.spawned {o : MPCOrchestrator X} {chan : ChannelId}
    {msg : CoordinationMessage X} {t : Task X} (h : o.Starts chan msg t) : t.spawned = t := by
  cases h <;> rfl

namespace Node

variable {n n' : Node X} {l : NodeLabel X}

/-- The task that a step spawns. -/
def starts (n : Node X) (l : NodeLabel X) : Option (Task X) :=
  match n.mpcOrchestrator, n.handled l with
  | some inst, some (p, msg) => (inst.orch.handleCoordinationMessage n.nextChannel p msg).spawned
  | _, _ => none

/-- A step that spawns a task has the installed orchestrator accept a message. -/
theorem starts_eq_some {t : Task X} (h : n.starts l = some t) : ∃ inst p msg,
    n.mpcOrchestrator = some inst ∧ n.handled l = some (p, msg) ∧
      inst.orch.Starts n.nextChannel msg t := by
  unfold starts at h
  split at h
  · next inst p msg hinst hl => exact ⟨inst, p, msg, hinst, hl, starts_of_spawned h⟩
  · cases h

/-- What a step does to the orchestrators of a node: nothing, or it installs a new one and keeps the
others, or the installed one handles a message or has a task move. -/
inductive InstancesStep (n : Node X) (l : NodeLabel X) (n' : Node X) : Prop
  | keep (hslot : n'.mpcOrchestrator = n.mpcOrchestrator) (hretired : n'.retired = n.retired)
      (hstarts : n.starts l = none)
  | install (assignments : HashMap String ℕ)
      (hslot : n'.mpcOrchestrator = some ⟨.ofAssignments n.id assignments, []⟩)
      (hretired : n'.retired = n.retired ++ n.mpcOrchestrator.toList)
      (hstarts : n.starts l = none)
  | work (inst inst' : Instance X) (hinst : n.mpcOrchestrator = some inst)
      (hslot : n'.mpcOrchestrator = some inst') (hretired : n'.retired = n.retired)
      (hroster : inst'.orch.roster = inst.orch.roster)
      (htasks : inst'.tasks.map Task.spawned =
        inst.tasks.map Task.spawned ++ (n.starts l).toList)

/-- The installed orchestrator handles the message of the step. -/
theorem instancesStep_coordinate {inst : Instance X} {p : X.PeerId} {msg : CoordinationMessage X}
    (hinst : n.mpcOrchestrator = some inst) (hl : n.handled l = some (p, msg)) :
    InstancesStep n l (n.coordinate inst p msg).1 := by
  have hstarts : n.starts l =
      (inst.orch.handleCoordinationMessage n.nextChannel p msg).spawned := by
    rw [starts, hinst, hl]
  refine .work inst _ hinst rfl rfl (handle_roster _ _ _ _) ?_
  rw [hstarts, List.map_append]
  congr 1
  cases hs : (inst.orch.handleCoordinationMessage n.nextChannel p msg).spawned with
  | none => rfl
  | some t =>
    show [t.spawned] = [t]
    rw [(starts_of_spawned hs).spawned]

theorem starts_eq_none_of_handled (h : n.handled l = none) : n.starts l = none := by
  unfold starts
  rw [h]
  cases n.mpcOrchestrator <;> rfl

theorem instancesStep_handled {r : RpcReply X} (hr : r.Handled n)
    (hl : n.handled l = r.broadcast.map (n.id, ·)) : InstancesStep n l r.node := by
  rcases hr with ⟨hb, he⟩ | ⟨inst, msg, hinst, hb, he⟩ <;> rw [he] <;> rw [hb] at hl
  · exact .keep rfl rfl (starts_eq_none_of_handled hl)
  · exact instancesStep_coordinate hinst hl

theorem instancesStep_task {l' : Label X} (hl' : (∃ i r, l' = .finish i r) ∨ ∃ i, l' = .advance i)
    (hl : n.handled l = none) (h : n.taskStep l' = some n') : InstancesStep n l n' := by
  obtain ⟨inst, c, hinst, hc, rfl⟩ := taskStep_eq_some.1 h
  refine .work inst c.inst hinst rfl rfl (Config.step_roster hc) ?_
  rw [starts_eq_none_of_handled hl, Option.toList_none, List.append_nil]
  rcases hl' with ⟨i, r, rfl⟩ | ⟨i, rfl⟩
  · obtain ⟨t, t', ht, hf, rfl⟩ := Config.step_finish_eq_some.1 hc
    exact map_spawned_set ht (Task.finish_spawned hf)
  · obtain ⟨t, t', o, ht, ha, rfl⟩ := Config.step_advance_eq_some.1 hc
    exact map_spawned_set ht (Task.advance_spawned ha).1

/-- An assignment message spawns nothing. -/
theorem instancesStep_assignment (n : Node X) (published : Bool) (now : UInt64)
    (msg : AssignmentMessage) (hl : n.handled l = none) :
    InstancesStep n l (n.handleAssignmentMessage published now msg).1 := by
  have hstarts := starts_eq_none_of_handled hl
  cases msg with
  | request c as sid =>
    rcases n.handleRequest_cases published now c as sid with
      ⟨-, he⟩ | ⟨i, -, ⟨-, he⟩ | ⟨-, -, he⟩⟩ <;> rw [he]
    · exact .keep rfl rfl hstarts
    · exact .keep rfl rfl hstarts
    · exact .install as rfl rfl hstarts
  | acceptance p i sid =>
    rcases n.handleAcceptance_cases published now p i sid with
      ⟨-, he⟩ | ⟨session, -, ⟨-, he⟩ | ⟨-, he⟩⟩ <;> rw [he]
    · exact .keep rfl rfl hstarts
    · exact .keep rfl rfl hstarts
    · exact .install session.assignments rfl rfl hstarts

/-- What a step does to the orchestrators of a node. -/
theorem step_instances (h : n.step l = some n') : InstancesStep n l n' := by
  cases l with
  | receive source published now g =>
    obtain rfl := Option.some.inj h
    cases g with
    | assignment msg =>
      have hl : n.handled (.receive source published now (.assignment msg)) = none := by
        cases source <;> rfl
      unfold onMessage
      split_ifs with hs
      · exact .keep rfl rfl (starts_eq_none_of_handled hl)
      · exact instancesStep_assignment n published now msg hl
    | coordination msg =>
      cases source with
      | none => exact .keep rfl rfl (starts_eq_none_of_handled rfl)
      | some p =>
        by_cases hp : p = n.id
        · subst hp
          have hl : n.handled (.receive (some n.id) published now (.coordination msg)) = none :=
            if_pos rfl
          rw [onMessage, if_pos rfl]
          exact .keep rfl rfl (starts_eq_none_of_handled hl)
        · have hl : n.handled (.receive (some p) published now (.coordination msg)) =
              some (p, msg) := if_neg hp
          rw [onMessage, if_neg fun he => hp (Option.some.inj he)]
          show InstancesStep n _ (n.onCoordination (some p) msg)
          rw [onCoordination]
          cases hinst : n.mpcOrchestrator with
          | none =>
            refine .keep rfl rfl ?_
            rw [starts, hinst]
          | some inst => exact instancesStep_coordinate hinst hl
    | protocol | other =>
      unfold onMessage
      split_ifs <;>
        exact .keep rfl rfl (starts_eq_none_of_handled (by cases source <;> rfl))
  | act a =>
    obtain ⟨⟨m, cs⟩, ha, rfl⟩ := Option.map_eq_some_iff.1 h
    cases a with
    | identify peer =>
      cases ha
      show InstancesStep n _ (n.onIdentify peer)
      unfold onIdentify
      split_ifs <;> exact .keep rfl rfl (starts_eq_none_of_handled rfl)
    | connectionClosed | broadcast | assignPeerIndices =>
      cases ha
      exact .keep rfl rfl (starts_eq_none_of_handled rfl)
    | initiateAuxGen timestamp =>
      cases ha
      exact instancesStep_handled (n.initiateAuxGen_handled timestamp) rfl
    | initiateKeygen threshold timestamp =>
      cases ha
      exact instancesStep_handled (n.initiateKeygen_handled threshold timestamp) rfl
    | initiateSigning message signers timestamp =>
      cases ha
      exact instancesStep_handled (n.initiateSigning_handled message signers timestamp) rfl
    | finish i r =>
      obtain ⟨m', hm', he⟩ := Option.map_eq_some_iff.1 ha
      cases he
      exact instancesStep_task (.inl ⟨i, r, rfl⟩) rfl hm'
    | advance i =>
      obtain ⟨m', hm', he⟩ := Option.map_eq_some_iff.1 ha
      cases he
      exact instancesStep_task (.inr ⟨i, rfl⟩) rfl hm'
    | emit φ out =>
      simp only [act, Option.ite_none_right_eq_some, Option.some.injEq, Prod.mk.injEq] at ha
      obtain ⟨-, rfl, -⟩ := ha
      exact .keep rfl rfl (starts_eq_none_of_handled rfl)

/-! ### All tasks of a node -/

/-- The tasks of the orchestrators of a node, as they were spawned. -/
def spawnedTasks (n : Node X) : List (Task X) :=
  n.instances.flatMap fun inst => inst.tasks.map Task.spawned

/-- The tasks that the steps of a run spawn. -/
def startedTasks (n : Node X) : List (NodeLabel X) → List (Task X)
  | [] => []
  | l :: ls => (n.starts l).toList ++
      match n.step l with
      | none => []
      | some n' => n'.startedTasks ls

theorem step_spawnedTasks (h : n.step l = some n') :
    n'.spawnedTasks.Perm (n.spawnedTasks ++ (n.starts l).toList) := by
  unfold spawnedTasks instances
  cases step_instances h with
  | keep hslot hretired hstarts =>
    rw [hslot, hretired, hstarts, Option.toList_none, List.append_nil]
  | install as hslot hretired hstarts =>
    rw [hslot, hretired, hstarts, Option.toList_none, List.append_nil]
    -- the new orchestrator has no tasks yet
    show ((n.retired ++ n.mpcOrchestrator.toList).flatMap _).Perm _
    exact List.perm_append_comm.flatMap_right _
  | work inst inst' hinst hslot hretired hroster htasks =>
    rw [hslot, hretired, hinst]
    simp only [Option.toList_some, List.cons_append, List.nil_append, List.flatMap_cons, htasks,
      List.append_assoc]
    exact List.perm_append_comm.append_left _

/-- What a node has spawned is what the steps of its run have spawned. -/
theorem run_spawnedTasks {ls : List (NodeLabel X)} (h : (nodeMachine X).run n ls = some n') :
    n'.spawnedTasks.Perm (n.spawnedTasks ++ n.startedTasks ls) := by
  induction ls generalizing n with
  | nil =>
    obtain rfl := Option.some.inj h
    rw [startedTasks, List.append_nil]
  | cons l ls ih =>
    obtain ⟨m, hm, hn'⟩ := Machine.run_cons_eq_some.1 h
    have hstep : n.step l = some m := hm
    rw [startedTasks, hstep, ← List.append_assoc]
    exact (ih hn').trans ((step_spawnedTasks hstep).append_right _)

/-- A property of the tasks of a node and of the rosters of their orchestrators. -/
def AllTasks (P : List X.PeerId × HashMap X.PeerId PartyIndex × X.PeerId → Task X → Prop)
    (n : Node X) : Prop :=
  ∀ inst ∈ n.instances, ∀ t ∈ inst.tasks, P inst.orch.roster t.spawned

/-- After a step all tasks have the property exactly if all had it before and a task that the step
spawns has it. -/
theorem allTasks_step_iff
    {P : List X.PeerId × HashMap X.PeerId PartyIndex × X.PeerId → Task X → Prop}
    (h : n.step l = some n') : n'.AllTasks P ↔ n.AllTasks P ∧
      ∀ inst, n.mpcOrchestrator = some inst → ∀ t, n.starts l = some t → P inst.orch.roster t := by
  have hmem : ∀ m : Node X, m.AllTasks P ↔
      (∀ inst, m.mpcOrchestrator = some inst → ∀ t ∈ inst.tasks.map Task.spawned,
        P inst.orch.roster t) ∧
      ∀ inst ∈ m.retired, ∀ t ∈ inst.tasks.map Task.spawned, P inst.orch.roster t := by
    intro m
    simp only [AllTasks, instances, List.mem_append, Option.mem_toList, or_imp, forall_and,
      List.forall_mem_map]
  rw [hmem, hmem]
  cases step_instances h with
  | keep hslot hretired hstarts => simp [hslot, hretired, hstarts]
  | install as hslot hretired hstarts =>
    rw [hslot, hretired, hstarts]
    simp only [Option.some.injEq, forall_eq', List.map_nil, List.not_mem_nil, false_imp_iff,
      implies_true, true_and, List.mem_append, Option.mem_toList, or_imp, forall_and, reduceCtorEq,
      and_true]
    exact and_comm
  | work inst inst' hinst hslot hretired hroster htasks =>
    rw [hslot, hretired, hinst]
    simp only [Option.some.injEq, forall_eq', htasks, hroster, List.mem_append, Option.mem_toList,
      or_imp, forall_and]
    exact and_right_comm

end Node

end P2pMpc
