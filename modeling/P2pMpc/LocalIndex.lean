import P2pMpc.Spawning

/-!
# The index of the local party

`handle_initiate_aux` looks the node up in the `party_assignments` that the message carries; keygen,
signing and the event loop look it up in the orchestrator's own. So the phases run under one index
exactly if every InitiateAux that is let in gives the node the index it has at home.
-/

namespace P2pMpc

open StateMachine MPCOrchestrator

variable {X : Platform}

/-- The index the party of a task runs the protocol under. -/
def Task.index : Task X → PartyIndex
  | .aux p n ts _ => (p.generateAuxInfo n ts).i
  | .keygen p n t ts _ => (p.generateKeyShare n t ts).i
  | .signing p s m ts _ => (p.signMessage s m ts).i

/-- The assignments of a message differ from those of the orchestrator on some peer. -/
def MPCOrchestrator.Disagrees (o : MPCOrchestrator X)
    (partyAssignments : HashMap X.PeerId PartyIndex) : Prop :=
  ∃ p, partyAssignments.lookup p ≠ o.partyAssignments.lookup p

namespace Node

variable {n n' : Node X} {l : NodeLabel X} {ls : List (NodeLabel X)}

/-- All parties run under the index that their orchestrator's assignment gives the node, and the
event loop takes that of the installed orchestrator for the index of the node. -/
def OneIndex (n : Node X) : Prop :=
  (∀ inst ∈ n.instances, ∀ t ∈ inst.tasks, inst.orch.localPartyIndex = some t.index) ∧
    n.ownIndex = n.mpcOrchestrator.bind fun inst => inst.orch.localPartyIndex

/-- An InitiateAux whose assignments disagree with the orchestrator's is rejected without effect. -/
def RejectsForeign (n : Node X) (l : NodeLabel X) : Prop :=
  ∀ inst p eid ps pa timestamp, n.mpcOrchestrator = some inst →
    n.handled l = some (p, .initiateAux eid ps pa timestamp) → inst.orch.Disagrees pa →
      ∃ e, inst.orch.handleInitiateAux n.nextChannel p eid pa timestamp =
        ⟨inst.orch, .error e, none⟩

/-- An InitiateAux that arrives in `Idle` with a valid timestamp, and lists the node, carries the
assignments of the orchestrator. -/
def MeetsOwnAssignments (n : Node X) (l : NodeLabel X) : Prop :=
  ∀ inst p eid ps pa timestamp, n.mpcOrchestrator = some inst →
    n.handled l = some (p, .initiateAux eid ps pa timestamp) →
      inst.orch.Enters (.initiateAux eid ps pa timestamp) → ¬ inst.orch.Disagrees pa

/-- An InitiateAux that is let in gives the node the index that the orchestrator's map gives it. -/
def MeetsOwnIndex (n : Node X) (l : NodeLabel X) : Prop :=
  ∀ inst p eid ps pa timestamp i ts, n.mpcOrchestrator = some inst →
    n.handled l = some (p, .initiateAux eid ps pa timestamp) →
      inst.orch.AuxChecks pa timestamp i ts → inst.orch.localPartyIndex = some i

theorem rejectsForeign_iff : n.RejectsForeign l ↔ n.MeetsOwnAssignments l := by
  constructor
  · rintro h inst p eid ps pa timestamp hinst hl ⟨i, ts, hc⟩ hdis
    obtain ⟨e, he⟩ := h inst p eid ps pa timestamp hinst hl hdis
    rcases handleInitiateAux_cases inst.orch n.nextChannel p eid pa timestamp with
      ⟨e', hnot, -⟩ | ⟨i', ts', -, he'⟩
    · exact hnot i ts hc
    · rw [he'] at he
      cases congrArg Reply.result he
  · intro h inst p eid ps pa timestamp hinst hl hdis
    rcases handleInitiateAux_cases inst.orch n.nextChannel p eid pa timestamp with
      ⟨e, -, he⟩ | ⟨i, ts, hc, -⟩
    · exact ⟨e, he⟩
    · exact absurd hdis (h inst p eid ps pa timestamp hinst hl ⟨i, ts, hc⟩)

theorem MeetsOwnAssignments.meetsOwnIndex (h : n.MeetsOwnAssignments l) : n.MeetsOwnIndex l := by
  intro inst p eid ps pa timestamp i ts hinst hl hc
  have hagree := h inst p eid ps pa timestamp hinst hl ⟨i, ts, hc⟩
  rw [Disagrees, not_exists_not] at hagree
  rw [localPartyIndex, ← hagree]
  exact hc.2.2

/-- The tasks a step spawns run under the right index exactly if the step meets the condition:
keygen and signing always look the node up in the orchestrator's map. -/
theorem starts_index_iff : (∀ inst, n.mpcOrchestrator = some inst → ∀ t, n.starts l = some t →
    inst.orch.localPartyIndex = some t.index) ↔ n.MeetsOwnIndex l := by
  constructor
  · intro h inst p eid ps pa timestamp i ts hinst hl hc
    refine h inst hinst (.aux (.new i n.nextChannel) auxTotalParties ts .running) ?_
    rw [starts, hinst, hl]
    show (inst.orch.handleInitiateAux n.nextChannel p eid pa timestamp).spawned = _
    rcases handleInitiateAux_cases inst.orch n.nextChannel p eid pa timestamp with
      ⟨e, hnot, -⟩ | ⟨i', ts', hc', he⟩
    · exact absurd hc (hnot i ts)
    · obtain rfl := Option.some.inj (hc.1.symm.trans hc'.1)
      obtain rfl := Option.some.inj (hc.2.2.symm.trans hc'.2.2)
      rw [he]
  · intro h inst hinst t ht
    obtain ⟨inst', p, msg, hinst', hl, hstarts⟩ := starts_eq_some ht
    obtain rfl := Option.some.inj (hinst.symm.trans hinst')
    cases hstarts with
    | aux eid ps pa timestamp i ts hc =>
      exact h inst p eid ps pa timestamp i ts hinst hl hc
    | keygen _ _ _ _ i _ _ hc => exact hc.2.2.2.2
    | signing _ _ _ _ i _ _ _ hc => exact hc.2.2

/-- The orchestrators of a node belong to it. -/
def Owned (n : Node X) : Prop := ∀ inst ∈ n.instances, inst.orch.localPeerId = n.id

theorem Owned.step (hn : n.Owned) (h : n.step l = some n') : n'.Owned := by
  intro inst' hinst'
  rw [(step_slot h).1]
  rw [instances, List.mem_append, Option.mem_toList] at hinst'
  cases step_instances h with
  | keep hslot hretired _ =>
    rw [hslot, hretired] at hinst'
    exact hn inst' (List.mem_append.2 (hinst'.imp_left Option.mem_toList.2))
  | install as hslot hretired _ =>
    rw [hslot, hretired] at hinst'
    rcases hinst' with he | hold
    · cases he
      rfl
    · exact hn inst' (List.mem_append.2 (List.mem_append.1 hold).symm)
  | work inst inst₁ hinst hslot hretired hroster _ =>
    rw [hslot, hretired] at hinst'
    rcases hinst' with he | hold
    · obtain rfl := Option.some.inj he
      have hsame : inst₁.orch.localPeerId = inst.orch.localPeerId :=
        congrArg (fun r => r.2.2) hroster
      rw [hsame]
      exact hn inst (List.mem_append_left _ (Option.mem_toList.2 hinst))
    · exact hn inst' (List.mem_append_right _ hold)

theorem oneIndex_iff (hn : n.Owned) : n.OneIndex ↔
    n.AllTasks fun roster t => roster.2.1.lookup roster.2.2 = some t.index := by
  have hown : n.ownIndex = n.mpcOrchestrator.bind fun inst => inst.orch.localPartyIndex := by
    unfold ownIndex
    cases hinst : n.mpcOrchestrator with
    | none => rfl
    | some inst =>
      have hid := hn inst (List.mem_append_left _ (Option.mem_toList.2 hinst))
      show inst.orch.partyAssignments.lookup n.id =
        inst.orch.partyAssignments.lookup inst.orch.localPeerId
      rw [hid]
  have hindex : ∀ t : Task X, t.spawned.index = t.index := by
    intro t
    cases t <;> rfl
  simp only [OneIndex, hown, and_true, AllTasks, hindex]
  rfl

/-- A step keeps the indices one exactly if the InitiateAux it lets in, if any, has the right
one. -/
theorem oneIndex_step_iff (hn : n.Owned) (h : n.step l = some n') :
    n'.OneIndex ↔ n.OneIndex ∧ n.MeetsOwnIndex l := by
  rw [oneIndex_iff (hn.step h), oneIndex_iff hn, allTasks_step_iff h, ← starts_index_iff]
  rfl

/-- In every run of a node, all parties of all its orchestrators run under the index the event loop
uses exactly if every InitiateAux that is let in has that index for the node. -/
theorem run_oneIndex_iff {n₀ : Node X} (h₀ : (nodeMachine X).init n₀)
    (h : (nodeMachine X).run n₀ ls = some n) :
    n.OneIndex ↔ (nodeMachine X).Meets MeetsOwnIndex n₀ ls := by
  obtain ⟨id, rfl⟩ := h₀
  have hstart : (Node.new id : Node X).Owned := by
    intro inst hinst
    cases hinst
  have hone : (Node.new id : Node X).OneIndex := by
    refine ⟨fun inst hinst => ?_, rfl⟩
    cases hinst
  rw [Machine.run_iff_meets (I := OneIndex) (K := Owned) (G := MeetsOwnIndex)
    (fun s l t hs hl => hs.step hl) (fun s l t hs hl => oneIndex_step_iff hs hl) hstart h]
  exact and_iff_right hone

end Node

open Node

/-- In every run of a node: the parties of all phases run under the index that the event loop uses
and every InitiateAux with other assignments is rejected, exactly if every InitiateAux that arrives
in `Idle`, with a valid timestamp and listing the node, carries the orchestrator's assignments. -/
theorem one_local_index_iff {n₀ n : Node X} {ls : List (NodeLabel X)}
    (h₀ : (nodeMachine X).init n₀) (h : (nodeMachine X).run n₀ ls = some n) :
    n.OneIndex ∧ (nodeMachine X).Meets RejectsForeign n₀ ls ↔
      (nodeMachine X).Meets MeetsOwnAssignments n₀ ls := by
  rw [run_oneIndex_iff h₀ h]
  constructor
  · rintro ⟨-, hrejects⟩
    exact hrejects.mono fun s l => rejectsForeign_iff.1
  · intro hown
    exact ⟨hown.mono fun s l => MeetsOwnAssignments.meetsOwnIndex,
      hown.mono fun s l => rejectsForeign_iff.2⟩

namespace ForeignMapRun

/-- The node `b` is assigned the index 1 by `a`. -/
def request : NodeLabel .plain :=
  .receive (some "a") true 0
    (.assignment (.request "a" (.ofEntries [("a", 0), ("b", 1), ("c", 2)]) "a-5"))

/-- An aux generation of `c` that gives `b` the index `i`. -/
def initiateAux (i : PartyIndex) : NodeLabel .plain :=
  .receive (some "c") true 0
    (.coordination (.initiateAux [] [] (.ofEntries [("c", 2), ("b", i), ("a", 0)]) ⟨0⟩))

end ForeignMapRun

/-- An InitiateAux with another index for `b` makes it run the aux generation under that index,
while its event loop drops the messages that are addressed to it. -/
theorem foreign_map_splits_index : ∃ n : Node .plain, ∃ inst : Instance .plain, ∃ t : Task .plain,
    (nodeMachine .plain).run (.new "b") [ForeignMapRun.request, ForeignMapRun.initiateAux 2] =
        some n ∧
      n.mpcOrchestrator = some inst ∧ t ∈ inst.tasks ∧ t.index = 2 ∧ n.ownIndex = some 1 ∧
      ¬ (n.OneIndex ∧ (nodeMachine .plain).Meets RejectsForeign (.new "b")
        [ForeignMapRun.request, ForeignMapRun.initiateAux 2]) := by
  refine ⟨_, _, _, rfl, rfl, List.mem_cons_self, rfl, rfl, fun h => ?_⟩
  have hindex := h.1.1 _ List.mem_cons_self _ List.mem_cons_self
  exact absurd hindex (by decide)

/-- With the orchestrator's own map all indices are one. -/
theorem own_map_keeps_index : ∃ n : Node .plain,
    (nodeMachine .plain).run (.new "b") [ForeignMapRun.request, ForeignMapRun.initiateAux 1] =
        some n ∧ n.OneIndex := by
  have hrun : ∃ n : Node .plain, (nodeMachine .plain).run (.new "b")
      [ForeignMapRun.request, ForeignMapRun.initiateAux 1] = some n := ⟨_, rfl⟩
  have hmeets : (nodeMachine .plain).Meets MeetsOwnAssignments (.new "b")
      [ForeignMapRun.request, ForeignMapRun.initiateAux 1] := by
    refine Machine.Meets.cons ?_ rfl (Machine.Meets.cons ?_ rfl trivial)
    · rintro inst p eid ps pa timestamp - ⟨⟩
    · rintro inst p eid ps pa timestamp hinst hl - ⟨q, hq⟩
      cases hl
      cases hinst
      exact hq rfl
  obtain ⟨n, hn⟩ := hrun
  exact ⟨n, hn, ((one_local_index_iff ⟨"b", rfl⟩ hn).2 hmeets).1⟩

end P2pMpc
