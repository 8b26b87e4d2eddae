import P2pMpc.SignatureOrigin
import P2pMpc.SigningWait
import P2pMpc.Spawning

/-!
# What the steps of a node with its lock do

The event loop records a message and installs later, under the lock; calls and tasks come between.
`LockedNode.step_cases` separates the steps that assign, those that record, those that install and
those that work on what is installed. As long as nothing is installed, the orchestrator of the node
runs as `orchestratorMachine` does (`LockedNode.run_slot`).
-/

namespace P2pMpc

open StateMachine MPCOrchestrator

variable {X : Platform}

/-- What a step that installs nothing does to the orchestrator slot and to the next channel. -/
inductive SlotMove (l : LockLabel X) : Option (Instance X) → ChannelId → Option (Instance X) →
    ChannelId → Prop
  | keep (slot : Option (Instance X)) (k : ChannelId) : SlotMove l slot k slot k
  | coordinate (inst : Instance X) (k : ChannelId) (p : X.PeerId) (msg : CoordinationMessage X) :
      SlotMove l (some inst) k
        (some (Config.reply ⟨inst, none⟩ (inst.orch.handleCoordinationMessage k p msg)).inst)
        (k + 1)
  | finish (inst : Instance X) (k : ChannelId) (j : ℕ) (r : Outcome X) (c : Config X)
      (hl : l = .act (.finish j r)) (hc : Config.step ⟨inst, none⟩ (.finish j r) = some c) :
      SlotMove l (some inst) k (some c.inst) k
  | advance (inst : Instance X) (k : ChannelId) (j : ℕ) (c : Config X) (hl : l = .act (.advance j))
      (hc : Config.step ⟨inst, none⟩ (.advance j) = some c) :
      SlotMove l (some inst) k (some c.inst) k

/-- The channel that the party of a task receives on. -/
def Task.messageRx : Task X → ChannelId
  | .aux p _ _ _ => p.messageRx
  | .keygen p _ _ _ _ => p.messageRx
  | .signing p _ _ _ _ => p.messageRx

namespace SlotMove

variable {l : LockLabel X} {inst : Instance X} {slot slot' : Option (Instance X)}
  {k k' : ChannelId}

theorem of_handled {n : Node X} {r : RpcReply X} (h : r.Handled n) :
    SlotMove l n.mpcOrchestrator n.nextChannel r.node.mpcOrchestrator r.node.nextChannel := by
  rcases h with ⟨-, he⟩ | ⟨inst, msg, hinst, -, he⟩ <;> rw [he]
  · exact .keep _ _
  · rw [hinst]
    exact .coordinate inst n.nextChannel n.id msg

theorem of_none (h : SlotMove l none k slot' k') : slot' = none := by
  cases h
  rfl

theorem le (h : SlotMove l slot k slot' k') : k ≤ k' := by
  cases h with
  | coordinate => exact Nat.le_succ k
  | keep | finish | advance => exact le_rfl

/-- Each of these moves is a run of the orchestrator, in which a protocol run returns only if the
step says so. -/
theorem run (h : SlotMove l (some inst) k slot' k') (hs : Config.Shaped ⟨inst, none⟩) :
    ∃ inst' ls, slot' = some inst' ∧
      (orchestratorMachine X).run ⟨inst, none⟩ ls = some ⟨inst', none⟩ ∧
      ∀ j r, Label.finish j r ∈ ls → l = .act (.finish j r) := by
  cases h with
  | keep => exact ⟨inst, [], rfl, rfl, fun j r hmem => absurd hmem List.not_mem_nil⟩
  | coordinate _ _ p msg =>
    obtain ⟨ls, hrun, hno⟩ := hs.run_reply rfl k p msg
    exact ⟨_, ls, rfl, hrun, fun j r hmem => absurd hmem (hno j r)⟩
  | finish _ _ j r c hl hc =>
    refine ⟨c.inst, [.finish j r], rfl, Machine.run_singleton.2 ?_, fun j' r' hmem => ?_⟩
    · obtain ⟨t, t', -, -, rfl⟩ := Config.step_finish_eq_some.1 hc
      exact hc
    · cases List.mem_singleton.1 hmem
      exact hl
  | advance _ _ j c hl hc =>
    refine ⟨c.inst, [.advance j], rfl, Machine.run_singleton.2 ?_, fun j' r' hmem => ?_⟩
    · obtain ⟨t, t', o, -, -, rfl⟩ := Config.step_advance_eq_some.1 hc
      exact hc
    · cases List.mem_singleton.1 hmem

/-- No move changes the assignments of the orchestrator. -/
theorem roster (h : SlotMove l slot k slot' k') :
    slot'.map (fun inst => inst.orch.roster) = slot.map fun inst => inst.orch.roster := by
  cases h with
  | keep => rfl
  | coordinate inst _ p msg => exact congrArg some (handle_roster inst.orch k p msg)
  | finish _ _ _ _ _ _ hc => exact congrArg some (Config.step_roster hc)
  | advance _ _ _ _ _ hc => exact congrArg some (Config.step_roster hc)

/-- The tasks after a move are those before it and at most a new one, with a new channel. -/
theorem tasks (h : SlotMove l (some inst) k slot' k') : ∃ inst', slot' = some inst' ∧
    ∃ new : Option (Task X), (∀ t ∈ new, t.messageRx = k) ∧
      inst'.tasks.map Task.spawned = inst.tasks.map Task.spawned ++ new.toList := by
  cases h with
  | keep => exact ⟨inst, rfl, none, by simp, by simp⟩
  | coordinate _ _ p msg =>
    refine ⟨_, rfl, (inst.orch.handleCoordinationMessage k p msg).spawned, ?_, ?_⟩
    · intro t ht
      cases starts_of_spawned ht <;> rfl
    · simp only [Config.reply, List.map_append]
      congr 1
      cases ht : (inst.orch.handleCoordinationMessage k p msg).spawned with
      | none => rfl
      | some t => exact congrArg (fun u => [u]) (starts_of_spawned ht).spawned
  | finish _ _ j r c hl hc =>
    refine ⟨c.inst, rfl, none, by simp, ?_⟩
    obtain ⟨t, t', ht, hf, rfl⟩ := Config.step_finish_eq_some.1 hc
    simpa using map_spawned_set ht (Task.finish_spawned hf)
  | advance _ _ j c hl hc =>
    refine ⟨c.inst, rfl, none, by simp, ?_⟩
    obtain ⟨t, t', o, ht, ha, rfl⟩ := Config.step_advance_eq_some.1 hc
    simpa using map_spawned_set ht (Task.advance_spawned ha).1

end SlotMove

namespace LockedNode

variable {s t : LockedNode X} {l : LockLabel X} {ls : List (LockLabel X)}

/-- What a step does to the node and to what the event loop has to do. -/
inductive NodeStep (s : LockedNode X) (l : LockLabel X) (t : LockedNode X) : Prop
  | take (source : Option X.PeerId) (published : Bool) (now : UInt64) (g : Gossip X)
      (hl : l = .take source published now g) (hidle : s.loop = none)
      (hnode : t.node = (s.node.takeMessage source published now g).1)
      (hloop : t.loop = (s.node.takeMessage source published now g).2)
  | install (assignments : HashMap String ℕ) (hl : l = .handle)
      (hwork : s.loop = some (.install assignments)) (hnode : t.node = s.node.install assignments)
      (hloop : t.loop = none)
  | assign (now : UInt64) (hl : l = .act (.assignPeerIndices now))
      (hnode : t.node = (s.node.assignPeerIndices now).1) (hloop : t.loop = s.loop)
  | work (hid : t.node.id = s.node.id) (hsessions : t.node.sessions = s.node.sessions)
      (hcurrent : t.node.currentSessionId = s.node.currentSessionId)
      (hretired : t.node.retired = s.node.retired)
      (hslot : SlotMove l s.node.mpcOrchestrator s.node.nextChannel t.node.mpcOrchestrator
        t.node.nextChannel)
      (hloop : l ≠ .handle ∧ t.loop = s.loop ∨
        t.loop = none ∧ ∀ as, s.loop ≠ some (.install as))

theorem nodeStep_of_eq (hnode : t.node = s.node)
    (hloop : l ≠ .handle ∧ t.loop = s.loop ∨
      t.loop = none ∧ ∀ as, s.loop ≠ some (.install as)) :
    NodeStep s l t := by
  refine .work ?_ ?_ ?_ ?_ ?_ hloop <;> rw [hnode]
  exact .keep _ _

/-- A call at its turn sends its message, if its guards let it, and handles it. -/
theorem nodeStep_of_handled {r : RpcReply X} (hr : r.Handled s.node) (hnode : t.node = r.node)
    (hl : l ≠ .handle) (hloop : t.loop = s.loop) : NodeStep s l t := by
  have hslot := SlotMove.of_handled (l := l) hr
  rw [← hnode] at hslot
  rcases hr with ⟨-, he⟩ | ⟨inst, msg, -, -, he⟩ <;> rw [he] at hnode
  · exact nodeStep_of_eq hnode (.inl ⟨hl, hloop⟩)
  · refine .work ?_ ?_ ?_ ?_ hslot (.inl ⟨hl, hloop⟩) <;> rw [hnode] <;> rfl

theorem step_act {a : Action X} (h : s.step (.act a) = some t) :
    ∃ r, s.node.act a = some r ∧ t = { s with node := r.1 } := by
  simp only [step, Option.ite_none_right_eq_some, Option.map_eq_some_iff] at h
  obtain ⟨-, r, hr, rfl⟩ := h
  exact ⟨r, hr, rfl⟩

/-- The event loop at its turn with the lock. -/
theorem nodeStep_handle (h : s.step .handle = some t) : NodeStep s .handle t := by
  cases hloop : s.loop with
  | none => simp [step, hloop] at h
  | some w =>
    simp only [step, hloop] at h
    obtain ⟨-, h⟩ := Option.ite_none_right_eq_some.1 h
    obtain rfl := Option.some.inj h
    cases w with
    | install assignments => exact .install assignments rfl hloop rfl rfl
    | coordinate source msg =>
      have hnot : ∀ as, s.loop ≠ some (.install as) := by simp [hloop]
      cases hinst : s.node.mpcOrchestrator with
      | none =>
        refine nodeStep_of_eq ?_ (.inr ⟨rfl, hnot⟩)
        simp [Node.underLock, Node.onCoordination, hinst]
      | some inst =>
        refine .work ?_ ?_ ?_ ?_ ?_ (.inr ⟨rfl, hnot⟩) <;>
          simp only [Node.underLock, Node.onCoordination, hinst]
        · rfl
        · rfl
        · rfl
        · rfl
        · exact .coordinate inst s.node.nextChannel source msg
    | forward φ msg =>
      refine nodeStep_of_eq rfl (.inr ⟨rfl, ?_⟩)
      simp [hloop]

/-- An action of the node or of its tasks. -/
theorem nodeStep_act {a : Action X} (h : s.step (.act a) = some t) : NodeStep s (.act a) t := by
  have hfree := (Option.ite_none_right_eq_some.1 h).1
  obtain ⟨r, ha, rfl⟩ := step_act h
  cases a with
  | identify peer =>
    obtain rfl := Option.some.inj ha
    show NodeStep s _ { s with node := s.node.onIdentify peer }
    unfold Node.onIdentify
    split_ifs
    · exact nodeStep_of_eq rfl (.inl ⟨by rintro ⟨⟩, rfl⟩)
    · exact nodeStep_of_eq rfl (.inl ⟨by rintro ⟨⟩, rfl⟩)
    · exact .work rfl rfl rfl rfl (.keep _ _) (.inl ⟨by rintro ⟨⟩, rfl⟩)
  | connectionClosed peer =>
    obtain rfl := Option.some.inj ha
    exact .work rfl rfl rfl rfl (.keep _ _) (.inl ⟨by rintro ⟨⟩, rfl⟩)
  | broadcast g =>
    obtain rfl := Option.some.inj ha
    exact nodeStep_of_eq rfl (.inl ⟨by rintro ⟨⟩, rfl⟩)
  | assignPeerIndices now =>
    obtain rfl := Option.some.inj ha
    exact .assign now rfl rfl rfl
  | initiateAuxGen | initiateKeygen | initiateSigning => cases hfree.1
  | finish j r =>
    obtain ⟨n, hn, rfl⟩ := Option.map_eq_some_iff.1 ha
    obtain ⟨inst, c, hinst, hc, rfl⟩ := Node.taskStep_eq_some.1 hn
    refine .work rfl rfl rfl rfl ?_ (.inl ⟨by rintro ⟨⟩, rfl⟩)
    rw [hinst]
    exact .finish inst _ j r c rfl hc
  | advance j =>
    obtain ⟨n, hn, rfl⟩ := Option.map_eq_some_iff.1 ha
    obtain ⟨inst, c, hinst, hc, rfl⟩ := Node.taskStep_eq_some.1 hn
    refine .work rfl rfl rfl rfl ?_ (.inl ⟨by rintro ⟨⟩, rfl⟩)
    rw [hinst]
    exact .advance inst _ j c rfl hc
  | emit φ out =>
    obtain ⟨-, he⟩ := Option.ite_none_right_eq_some.1 ha
    obtain rfl := Option.some.inj he
    exact nodeStep_of_eq rfl (.inl ⟨by rintro ⟨⟩, rfl⟩)

/-- What a step does to the node is one of these things. -/
theorem step_cases (h : s.step l = some t) : NodeStep s l t := by
  cases l with
  | take source published now g =>
    cases hloop : s.loop with
    | some w => simp [step, hloop] at h
    | none =>
      simp only [step, hloop] at h
      have hr : ∃ r, s.node.takeMessage source published now g = r := ⟨_, rfl⟩
      obtain ⟨⟨n, w⟩, hr⟩ := hr
      rw [hr] at h
      refine .take source published now g rfl hloop ?_ ?_ <;> rw [hr] <;> cases w <;> cases h <;>
        rfl
  | handle => exact nodeStep_handle h
  | act a => exact nodeStep_act h
  | call i c =>
    cases hpc : s.calls i with
    | idle =>
      simp only [step, hpc] at h
      obtain rfl := Option.some.inj h
      exact nodeStep_of_eq rfl (.inl ⟨by rintro ⟨⟩, rfl⟩)
    | entering | dropped | waiting => simp [step, hpc] at h
  | enter i =>
    cases hpc : s.calls i with
    | entering c =>
      simp only [step, hpc] at h
      obtain ⟨-, h⟩ := Option.ite_none_right_eq_some.1 h
      obtain rfl := Option.some.inj h
      exact nodeStep_of_handled (s.node.initiateCall_handled c) rfl (by rintro ⟨⟩) rfl
    | idle | dropped | waiting => simp [step, hpc] at h
  | await i =>
    cases hpc : s.calls i with
    | dropped =>
      simp only [step, hpc] at h
      obtain rfl := Option.some.inj h
      exact nodeStep_of_eq rfl (.inl ⟨by rintro ⟨⟩, rfl⟩)
    | idle | entering | waiting => simp [step, hpc] at h
  | leave i timedOut =>
    cases hpc : s.calls i with
    | waiting =>
      simp only [step, hpc] at h
      obtain ⟨-, h⟩ := Option.ite_none_right_eq_some.1 h
      obtain rfl := Option.some.inj h
      exact nodeStep_of_eq rfl (.inl ⟨by rintro ⟨⟩, rfl⟩)
    | idle | entering | dropped => simp [step, hpc] at h

/-! ### Steps that install nothing -/

/-- The step installs an orchestrator. -/
def InstallsNow (s : LockedNode X) (l : LockLabel X) : Prop :=
  l = .handle ∧ ∃ assignments, s.loop = some (.install assignments)

/-- The orchestrator of the node has one of the shapes of a run. -/
def SlotShaped (s : LockedNode X) : Prop :=
  ∀ inst, s.node.mpcOrchestrator = some inst → Config.Shaped ⟨inst, none⟩

/-- What a message does before it needs the lock. -/
theorem takeMessage_keeps (n : Node X) (source : Option X.PeerId) (published : Bool) (now : UInt64)
    (g : Gossip X) : (n.takeMessage source published now g).1.id = n.id ∧
      (n.takeMessage source published now g).1.mpcOrchestrator = n.mpcOrchestrator ∧
      (n.takeMessage source published now g).1.nextChannel = n.nextChannel := by
  unfold Node.takeMessage
  by_cases hs : source = some n.id
  · rw [if_pos hs]
    exact ⟨rfl, rfl, rfl⟩
  · rw [if_neg hs]
    split
    · split_ifs <;> exact ⟨rfl, rfl, rfl⟩
    · split <;> exact ⟨rfl, rfl, rfl⟩
    · exact ⟨rfl, rfl, rfl⟩
    · exact ⟨rfl, rfl, rfl⟩
    · exact ⟨rfl, rfl, rfl⟩

/-- A step moves the orchestrator of the node, or installs another one. -/
theorem step_slot (h : s.step l = some t) :
    (¬ s.InstallsNow l ∧ SlotMove l s.node.mpcOrchestrator s.node.nextChannel
      t.node.mpcOrchestrator t.node.nextChannel) ∨
    (s.InstallsNow l ∧ t.node.nextChannel = s.node.nextChannel ∧
      ∃ assignments, t.node.mpcOrchestrator = some ⟨.ofAssignments s.node.id assignments, []⟩) := by
  cases step_cases h with
  | take source published now g hl hidle hnode hloop =>
    obtain ⟨-, hslot, hnext⟩ := takeMessage_keeps s.node source published now g
    refine .inl ⟨fun hi => ?_, ?_⟩
    · rw [hl] at hi
      cases hi.1
    · rw [hnode, hslot, hnext]
      exact .keep _ _
  | install assignments hl hwork hnode hloop =>
    refine .inr ⟨⟨hl, assignments, hwork⟩, ?_, assignments, ?_⟩ <;> rw [hnode] <;> rfl
  | assign now hl hnode hloop =>
    refine .inl ⟨fun hi => ?_, ?_⟩
    · rw [hl] at hi
      cases hi.1
    · rw [hnode]
      exact .keep _ _
  | work hid hsessions hcurrent hretired hslot hloop =>
    refine .inl ⟨?_, hslot⟩
    rintro ⟨hl, assignments, hwork⟩
    rcases hloop with ⟨hne, -⟩ | ⟨-, hne⟩
    · exact hne hl
    · exact hne assignments hwork

theorem SlotShaped.of_init (h : (lockMachine X).init s) : s.SlotShaped := by
  obtain ⟨id, rfl⟩ := h
  rintro inst ⟨⟩

theorem SlotShaped.step (hs : s.SlotShaped) (h : s.step l = some t) : t.SlotShaped := by
  intro inst' hinst'
  rcases step_slot h with ⟨-, hmove⟩ | ⟨-, -, assignments, hslot⟩
  · cases hinst : s.node.mpcOrchestrator with
    | none =>
      rw [hinst] at hmove
      cases hinst'.symm.trans hmove.of_none
    | some inst =>
      rw [hinst] at hmove
      obtain ⟨inst'', ls, hslot, hrun, -⟩ := hmove.run (hs inst hinst)
      obtain rfl := Option.some.inj (hinst'.symm.trans hslot)
      exact Machine.run_preserves (I := Config.Shaped) (fun _ _ _ hc hl => hc.step hl)
        (hs inst hinst) hrun
  · obtain rfl := Option.some.inj (hinst'.symm.trans hslot)
    exact .idle

theorem reachable_slotShaped (h : (lockMachine X).Reachable s) : s.SlotShaped :=
  h.induct (fun _ => SlotShaped.of_init) fun _ _ _ hs hl => hs.step hl

/-- In a run without installations the orchestrator of the node takes a run of its own. -/
theorem run_slot {inst : Instance X} (hs : s.SlotShaped)
    (hinst : s.node.mpcOrchestrator = some inst)
    (hno : (lockMachine X).Meets (fun u l => ¬ u.InstallsNow l) s ls)
    (hr : (lockMachine X).run s ls = some t) :
    ∃ inst' ls', t.node.mpcOrchestrator = some inst' ∧
      (orchestratorMachine X).run ⟨inst, none⟩ ls' = some ⟨inst', none⟩ := by
  induction ls generalizing s inst with
  | nil =>
    cases hr
    exact ⟨inst, [], hinst, rfl⟩
  | cons l ls ih =>
    obtain ⟨u, hu, hur⟩ := Machine.run_cons_eq_some.1 hr
    rcases step_slot hu with ⟨-, hmove⟩ | ⟨hnow, -⟩
    · rw [hinst] at hmove
      obtain ⟨inst₁, ls₁, hslot, hrun₁, -⟩ := hmove.run (hs inst hinst)
      obtain ⟨inst', ls₂, hslot', hrun₂⟩ := ih (hs.step hu) hslot (hno.2 u hu) hur
      exact ⟨inst', ls₁ ++ ls₂, hslot', Machine.run_append_eq_some.2 ⟨_, hrun₁, hrun₂⟩⟩
    · exact absurd hnow hno.1

/-- The task, as it was spawned, is one of the installed orchestrator. -/
def HasTask (s : LockedNode X) (task : Task X) : Prop :=
  ∃ inst, s.node.mpcOrchestrator = some inst ∧ task ∈ inst.tasks.map Task.spawned

/-- A task stays one of the installed orchestrator exactly if no other orchestrator is installed:
no later task has its channel. -/
theorem run_hasTask_iff {task : Task X} (hchan : task.messageRx < s.node.nextChannel)
    (hr : (lockMachine X).run s ls = some t) :
    t.HasTask task ↔
      s.HasTask task ∧ (lockMachine X).Meets (fun u l => ¬ u.InstallsNow l) s ls := by
  refine Machine.run_iff_meets (I := fun u => u.HasTask task)
    (K := fun u : LockedNode X => task.messageRx < u.node.nextChannel) ?_ ?_ hchan hr
  · intro u l w hlt hl
    rcases step_slot hl with ⟨-, hmove⟩ | ⟨-, hnext, -⟩
    · exact hlt.trans_le hmove.le
    · rw [hnext]
      exact hlt
  · intro u l w hlt hl
    rcases step_slot hl with ⟨hno, hmove⟩ | ⟨hnow, -, assignments, hslot'⟩
    · rw [and_iff_left hno]
      cases hslot : u.node.mpcOrchestrator with
      | none =>
        rw [hslot] at hmove
        simp [HasTask, hslot, hmove.of_none]
      | some inst =>
        rw [hslot] at hmove
        obtain ⟨inst', hslot', new, hnew, htasks⟩ := hmove.tasks
        simp only [HasTask, hslot, hslot', Option.some.injEq, exists_eq_left', htasks,
          List.mem_append, Option.mem_toList]
        refine or_iff_left fun hmem => ?_
        have hne : task.messageRx ≠ u.node.nextChannel := ne_of_lt hlt
        exact hne (hnew task hmem)
    · refine iff_of_false ?_ fun hx => hx.2 hnow
      rintro ⟨inst, hinst, hmem⟩
      obtain rfl := Option.some.inj (hslot'.symm.trans hinst)
      cases hmem

end LockedNode

end P2pMpc
