import P2pMpc.LockedSteps

/-!
# Whose signature a call answers with

`initiate_signing` drops the lock before it waits, and then reads the state of whatever orchestrator
the node has. The signature it finds is that of its own task as long as no other orchestrator has
been installed in between; afterwards its task is gone from the slot, and what it finds is another
signing's.
-/

namespace P2pMpc

open StateMachine MPCOrchestrator

variable {X : Platform}

/-- The signature that `wait_for_signature` finds. -/
def Node.foundSignature (n : Node X) : Option String :=
  match n.mpcOrchestrator with
  | none => none
  | some inst =>
    match inst.orch.state with
    | .signingCompleted signature => some signature
    | _ => none

/-- The call `i` of `initiate_signing` handles its message between `u` and `v`, then waits, and in
`w` answers with a signature. -/
structure SigningAnswer (i : ℕ) (message : String) (signers : List PartyIndex)
    (timestamp : SystemTime) (signature : String) (u v : LockedNode X) (mid : List (LockLabel X))
    (w : LockedNode X) : Prop where
  entering : u.calls i = .entering (.signing message signers timestamp)
  handled : u.step (.enter i) = some v
  waits : v.calls i = .dropped
  run : (lockMachine X).run v mid = some w
  unreturned : ∀ timedOut, LockLabel.leave i timedOut ∉ mid
  returns : ∃ x, w.step (.leave i false) = some x
  found : w.node.foundSignature = some signature

namespace LockedNode

/-- The task is the one that the local handling of the call spawns, as the node goes to `Signing`
under the execution id of the call. -/
def SpawnsFor (u v : LockedNode X) (message : String) (signers : List PartyIndex)
    (timestamp : SystemTime) (task : Task X) : Prop :=
  ∃ inst₀ inst₁ party ts, task = .signing party signers message.toUTF8.data.toList ts .running ∧
    timestamp.secsSinceEpoch = some ts ∧ party.messageRx = u.node.nextChannel ∧
    u.node.mpcOrchestrator = some inst₀ ∧ v.node.mpcOrchestrator = some inst₁ ∧
    inst₁.tasks = inst₀.tasks ++ [task] ∧
    inst₁.orch.state = .signing u.node.id (createExecutionId "signing" timestamp)
      message.toUTF8.data.toList signers

/-- In the run, the `sign_message` of the task returns the signature. -/
def Returns (v : LockedNode X) (mid : List (LockLabel X)) (task : Task X) (σ : X.Signature) :
    Prop :=
  ∃ pre post x inst, ∃ j : ℕ, mid = pre ++ .act (.finish j (.signing (.ok σ))) :: post ∧
    (lockMachine X).run v pre = some x ∧ x.node.mpcOrchestrator = some inst ∧
    inst.tasks[j]? = some task

/-! ### Where the signature of a node comes from -/

/-- The task `j` of the orchestrator of the node has the signature. -/
def HasSignature (j : ℕ) (signature : String) (s : LockedNode X) : Prop :=
  ∃ inst, s.node.mpcOrchestrator = some inst ∧ Config.HasSignature j signature ⟨inst, none⟩

/-- The step has the protocol run of the task `j` of the orchestrator return the signature. -/
def ReturnsSignature (j : ℕ) (signature : String) (s : LockedNode X) (l : LockLabel X) : Prop :=
  ∃ inst σ p ss m ts, s.node.mpcOrchestrator = some inst ∧
    inst.tasks[j]? = some (.signing p ss m ts .running) ∧
    l = .act (.finish j (.signing (.ok σ))) ∧ X.debugSignature σ = signature

variable {s t : LockedNode X} {l : LockLabel X} {j : ℕ} {signature : String}

/-- The signing task that an orchestrator has is its only one. -/
theorem HasTask.spawned_eq {task u : Task X} {inst : Instance X} (hs : s.SlotShaped)
    (h : s.HasTask task) (hφ : task.phase = .signing) (hinst : s.node.mpcOrchestrator = some inst)
    (hu : inst.tasks[j]? = some u) (hφ' : u.phase = .signing) : u.spawned = task := by
  obtain ⟨inst', hinst', hmem⟩ := h
  obtain rfl := Option.some.inj (hinst.symm.trans hinst')
  obtain ⟨t, ht, rfl⟩ := List.mem_map.1 hmem
  obtain ⟨k, hk⟩ := List.getElem?_of_mem ht
  have hphase : t.phase = .signing := by
    cases t <;> first | rfl | cases hφ
  obtain rfl : k = j := (hs inst hinst).eq_of_phase hk hu (hphase.trans hφ'.symm)
  rw [Option.some.inj (hk.symm.trans hu)]

theorem step_finish {r : Outcome X} (h : s.step (.act (.finish j r)) = some t) :
    ∃ inst c, s.node.mpcOrchestrator = some inst ∧
      Config.step ⟨inst, none⟩ (.finish j r) = some c := by
  obtain ⟨_, ha, -⟩ := step_act h
  obtain ⟨n, hn, -⟩ := Option.map_eq_some_iff.1 ha
  obtain ⟨inst, c, hinst, hc, -⟩ := Node.taskStep_eq_some.1 hn
  exact ⟨inst, c, hinst, hc⟩

/-- A step that ends with the signature found it there, or has the protocol run return it. -/
theorem step_hasSignature (hs : s.SlotShaped) (h : s.step l = some t)
    (ht : t.HasSignature j signature) :
    s.HasSignature j signature ∨ s.ReturnsSignature j signature l := by
  obtain ⟨inst', hinst', hsig⟩ := ht
  rcases step_slot h with ⟨-, hmove⟩ | ⟨-, -, assignments, hslot⟩
  · cases hinst : s.node.mpcOrchestrator with
    | none =>
      rw [hinst] at hmove
      cases hinst'.symm.trans hmove.of_none
    | some inst =>
      rw [hinst] at hmove
      obtain ⟨inst'', ls, hslot, hrun, hfin⟩ := hmove.run (hs inst hinst)
      obtain rfl := Option.some.inj (hinst'.symm.trans hslot)
      rcases Config.run_hasSignature (hs inst hinst) hrun hsig with hold | ⟨_, hmem, σ, rfl, hσ⟩
      · exact .inl ⟨inst, hinst, hold⟩
      · -- a protocol run that returns was running
        obtain rfl := hfin j _ hmem
        obtain ⟨inst₁, c, hinst₁, hc⟩ := step_finish h
        obtain rfl := Option.some.inj (hinst.symm.trans hinst₁)
        obtain ⟨u, u', hu, hf, rfl⟩ := Config.step_finish_eq_some.1 hc
        right
        rcases u with _ | _ | ⟨p, ss, m, ts, pc⟩
        · cases hf
        · cases hf
        · cases pc <;> cases hf
          exact ⟨inst, σ, p, ss, m, ts, hinst, hu, rfl, hσ⟩
  · obtain rfl := Option.some.inj (hinst'.symm.trans hslot)
    obtain ⟨_, _, _, _, ⟨_, hnone, -⟩ | ⟨hnone, -⟩⟩ := hsig <;> cases hnone

end LockedNode

open LockedNode

/-- The signature was returned by `sign_message` in the task that the local handling of the call
has spawned for its message and its signers, and the state that answers is that of the orchestrator
of this task. -/
def OwnSignature (message : String) (signers : List PartyIndex) (timestamp : SystemTime)
    (signature : String) (u v : LockedNode X) (mid : List (LockLabel X)) (w : LockedNode X) :
    Prop :=
  ∃ task σ, u.SpawnsFor v message signers timestamp task ∧ v.Returns mid task σ ∧
    X.debugSignature σ = signature ∧ w.HasTask task

section

variable {i : ℕ} {message : String} {signers : List PartyIndex} {timestamp : SystemTime}
  {signature : String} {u v w : LockedNode X} {mid : List (LockLabel X)}

/-- The local handling of the call spawns its task, or the node only observes. -/
theorem SigningAnswer.handling (h : SigningAnswer i message signers timestamp signature u v mid w)
    (hu : u.SlotShaped) : ∃ inst₁, v.node.mpcOrchestrator = some inst₁ ∧
      v.node.nextChannel = u.node.nextChannel + 1 ∧
      (∃ q e m s, inst₁.orch.state = .signing q e m s) ∧
      ((∀ t ∈ inst₁.tasks, t.phase ≠ .signing) ∨
        ∃ task tasks, u.SpawnsFor v message signers timestamp task ∧
          inst₁.tasks = tasks ++ [task] ∧ ∀ t ∈ tasks, t.phase ≠ .signing) := by
  have hstep := h.handled
  simp only [LockedNode.step, h.entering] at hstep
  obtain ⟨-, hstep⟩ := Option.ite_none_right_eq_some.1 hstep
  obtain rfl := Option.some.inj hstep
  have hok : ∃ eid, (u.node.initiateSigning message signers timestamp).result = .ok eid := by
    have hwaits := h.waits
    simp only [setCall, Function.update_self, InitiateCall.after, Node.initiateCall] at hwaits
    cases hr : (u.node.initiateSigning message signers timestamp).result with
    | ok eid => exact ⟨eid, rfl⟩
    | error e => simp [hr] at hwaits
  obtain ⟨eid, hok⟩ := hok
  obtain ⟨rfl, inst₀, inst₁, j, ts, hinst₀, hc, hinst₁, hnext, -, hstate, hcase⟩ :=
    Node.initiateSigning_ok hok
  have hno : ∀ t ∈ inst₀.tasks, t.phase ≠ .signing :=
    (hu inst₀ hinst₀).no_signing_of_ready hc.2.1
  refine ⟨inst₁, hinst₁, hnext, ⟨_, _, _, _, hstate⟩, ?_⟩
  rcases hcase with ⟨-, htasks⟩ | ⟨-, a, share, htasks⟩
  · left
    rw [htasks]
    exact hno
  · exact .inr ⟨_, inst₀.tasks, ⟨inst₀, inst₁, _, ts, rfl, hc.1, rfl, hinst₀, hinst₁, htasks,
      hstate⟩, htasks, hno⟩

end

/-- If nothing is installed, a signature that is found at the end of a run is the one that the
running signing task at its start, the only one, has returned. -/
theorem returns_of_completed {signature : String} {v w : LockedNode X} {mid : List (LockLabel X)}
    {inst₁ inst : Instance X} {tasks : List (Task X)} {task : Task X}
    (hv : (lockMachine X).Reachable v) (hinst₁ : v.node.mpcOrchestrator = some inst₁)
    (htasks : inst₁.tasks = tasks ++ [task]) (hone : ∀ t ∈ tasks, t.phase ≠ .signing)
    (hnew : ∃ party ss m ts, task = .signing party ss m ts .running)
    (hchan : task.messageRx < v.node.nextChannel)
    (hno : (lockMachine X).Meets (fun s l => ¬ s.InstallsNow l) v mid)
    (hr : (lockMachine X).run v mid = some w) (hinst : w.node.mpcOrchestrator = some inst)
    (hstate : inst.orch.state = .signingCompleted signature) :
    w.HasTask task ∧ ∃ σ, v.Returns mid task σ ∧ X.debugSignature σ = signature := by
  have hvshape := reachable_slotShaped hv
  have hvtask : v.HasTask task := by
    obtain ⟨party, ss, m, ts, rfl⟩ := hnew
    refine ⟨inst₁, hinst₁, ?_⟩
    rw [htasks, List.map_append]
    exact List.mem_append_right _ List.mem_cons_self
  have hφ : task.phase = .signing := by
    obtain ⟨party, ss, m, ts, rfl⟩ := hnew
    rfl
  refine ⟨(run_hasTask_iff hchan hr).2 ⟨hvtask, hno⟩, ?_⟩
  obtain ⟨j, hj⟩ := (reachable_slotShaped (hv.run hr) inst hinst).of_signingCompleted hstate
  rcases Machine.run_origin_of_invariant (K := LockedNode.SlotShaped)
    (P := LockedNode.HasSignature j signature) (C := LockedNode.ReturnsSignature j signature)
    (fun _ _ _ hs hl => hs.step hl) (fun _ _ _ hs hl => step_hasSignature hs hl) hvshape hr
    ⟨inst, hinst, hj⟩ with ⟨inst', hinst', hold⟩ | ⟨pre, l, post, x, rfl, hx, hreturns⟩
  · -- the task has not returned at the start
    obtain rfl := Option.some.inj (hinst₁.symm.trans hinst')
    have honly : ∀ t, inst₁.tasks[j]? = some t → t.phase = .signing → t = task := by
      intro t ht hφ'
      have hmem := List.mem_of_getElem? ht
      rw [htasks, List.mem_append, List.mem_singleton] at hmem
      exact hmem.resolve_left fun hold => hone t hold hφ'
    obtain ⟨party, ss, m, ts, rfl⟩ := hnew
    obtain ⟨_, _, _, _, ⟨_, ht, -⟩ | ⟨ht, -⟩⟩ := hold <;> cases honly _ ht rfl
  · obtain ⟨instx, σ, p, ss, m, ts, hinstx, ht, rfl, hσ⟩ := hreturns
    have hxtask := (run_hasTask_iff hchan hx).2 ⟨hvtask, hno.left⟩
    obtain rfl : .signing p ss m ts .running = task :=
      hxtask.spawned_eq (reachable_slotShaped (hv.run hx)) hφ hinstx ht rfl
    exact ⟨σ, ⟨pre, post, x, instx, j, rfl, hx, hinstx, ht⟩, hσ⟩

/-- For every interleaving of calls, messages and task steps that the lock allows: the signature
that a call of `initiate_signing` answers with is its own exactly if no orchestrator is installed
on the node between its local handling and its answer. -/
theorem answers_own_signature_iff {i : ℕ} {message : String} {signers : List PartyIndex}
    {timestamp : SystemTime} {signature : String} {u v w : LockedNode X} {mid : List (LockLabel X)}
    (hu : (lockMachine X).Reachable u)
    (h : SigningAnswer i message signers timestamp signature u v mid w) :
    OwnSignature message signers timestamp signature u v mid w ↔
      (lockMachine X).Meets (fun s l => ¬ s.InstallsNow l) v mid := by
  have hv : (lockMachine X).Reachable v :=
    hu.step (show (lockMachine X).step u (.enter i) = some v from h.handled)
  have hvshape := reachable_slotShaped hv
  obtain ⟨inst₁, hinst₁, hnext, hstate, hcase⟩ := h.handling (reachable_slotShaped hu)
  have hbelow : ∀ task, u.SpawnsFor v message signers timestamp task →
      task.messageRx < v.node.nextChannel := by
    rintro task ⟨_, _, party, ts, rfl, -, hchan, -⟩
    rw [hnext]
    exact Nat.lt_succ_of_le (le_of_eq hchan)
  constructor
  · rintro ⟨task, σ, hspawns, -, -, htask⟩
    exact ((run_hasTask_iff (hbelow task hspawns) h.run).1 htask).2
  · intro hno
    obtain ⟨inst, ls', hinst, hrun⟩ := run_slot hvshape hinst₁ hno h.run
    have hfound := h.found
    rw [Node.foundSignature, hinst] at hfound
    have hcompleted : inst.orch.state = .signingCompleted signature := by
      dsimp only at hfound
      split at hfound
      · next hs => rw [hs, Option.some.inj hfound]
      · cases hfound
    rcases hcase with hobserves | ⟨task, tasks, hspawns, htasks, hone⟩
    · -- an observer stays in `Signing`
      obtain ⟨q, e, m, ss, hsigning⟩ := hstate
      have hinactive := (hvshape inst₁ hinst₁).inactive_of_observed rfl hsigning hobserves
      have hsame : inst.orch.state = inst₁.orch.state := (hinactive.run hrun).2
      rw [hsigning, hcompleted] at hsame
      cases hsame
    · have hnew : ∃ party ss m ts, task = .signing party ss m ts .running := by
        obtain ⟨_, _, party, ts, he, -⟩ := hspawns
        exact ⟨party, _, _, ts, he⟩
      obtain ⟨htask, σ, hreturns, hσ⟩ := returns_of_completed hv hinst₁ htasks hone hnew
        (hbelow task hspawns) hno h.run hinst hcompleted
      exact ⟨_, σ, hspawns, hreturns, hσ, htask⟩

namespace SigningRun

/-- The node `b` has done its keygen and calls `initiate_signing` for the message `m`. -/
def before : List (LockLabel .plain) := WaitRun.request :: WaitRun.work.take 12

/-- Its protocol run returns, and the call asks for the lock to read the state. -/
def own : List (LockLabel .plain) :=
  [.act (.finish 2 (.signing (.ok "sig"))), .act (.advance 2), .await 0]

/-- Before the call asks for the lock, the Request comes once more, and another call takes the new
orchestrator to a signature of the message `other`. -/
def foreign : List (LockLabel .plain) :=
  [WaitRun.request, .handle, .call 1 (.auxGen ⟨1⟩), .enter 1, .act (.finish 0 (.aux (.ok (1 : ℕ)))),
    .act (.advance 0), .act (.advance 0), .call 1 (.keygen 2 ⟨1⟩), .enter 1,
    .act (.finish 1 (.keygen (.ok [2]))), .act (.advance 1), .act (.advance 1),
    .call 1 (.signing "other" [0, 1] ⟨1⟩), .enter 1,
    .act (.finish 2 (.signing (.ok "other sig"))), .act (.advance 2), .await 0]

end SigningRun

/-- The call for the message `m` answers with the signature of the message `other`. -/
theorem replaced_orchestrator_answers : ∃ u v w : LockedNode .plain,
    (lockMachine .plain).Reachable u ∧
      SigningAnswer 0 "m" [0, 1] ⟨0⟩ "other sig" u v SigningRun.foreign w ∧
      ¬ OwnSignature "m" [0, 1] ⟨0⟩ "other sig" u v SigningRun.foreign w := by
  refine ⟨_, _, _, ⟨.new "b", SigningRun.before, ⟨"b", rfl⟩, rfl⟩,
    ⟨rfl, rfl, rfl, rfl, ?_, ⟨_, rfl⟩, rfl⟩, ?_⟩
  · intro timedOut hmem
    simp [SigningRun.foreign, WaitRun.request] at hmem
  · rintro ⟨_, _, ⟨_, _, party, ts, rfl, -⟩, -, -, inst, hinst, hmem⟩
    obtain rfl := Option.some.inj hinst
    rcases List.mem_cons.1 hmem with he | hmem
    · cases he
    · rcases List.mem_cons.1 hmem with he | hmem
      · cases he
      · rcases List.mem_cons.1 hmem with he | hmem
        · have hm : "m".toUTF8.data.toList = "other".toUTF8.data.toList := by
            injection he
          exact absurd hm (by decide)
        · cases hmem

/-- Without a replacement the call answers with its own signature. -/
theorem kept_orchestrator_answers : ∃ u v w : LockedNode .plain,
    (lockMachine .plain).Reachable u ∧ SigningAnswer 0 "m" [0, 1] ⟨0⟩ "sig" u v SigningRun.own w ∧
      OwnSignature "m" [0, 1] ⟨0⟩ "sig" u v SigningRun.own w := by
  have h : ∃ u v w : LockedNode .plain, (lockMachine .plain).Reachable u ∧
      SigningAnswer 0 "m" [0, 1] ⟨0⟩ "sig" u v SigningRun.own w := by
    refine ⟨_, _, _, ⟨.new "b", SigningRun.before, ⟨"b", rfl⟩, rfl⟩,
      ⟨rfl, rfl, rfl, rfl, ?_, ⟨_, rfl⟩, rfl⟩⟩
    intro timedOut hmem
    simp [SigningRun.own] at hmem
  obtain ⟨u, v, w, hu, h⟩ := h
  refine ⟨u, v, w, hu, h, (answers_own_signature_iff hu h).2 ?_⟩
  refine Machine.meets_of_forall_mem (fun l hl => ?_) v |>.mono fun s l (hl : l ≠ .handle) hnow =>
    hl hnow.1
  rintro rfl
  simp [SigningRun.own] at hl

end P2pMpc
