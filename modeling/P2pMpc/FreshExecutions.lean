import P2pMpc.Spawning

/-!
# The execution ids that reach the protocol

An Initiate message carries an execution id made from a clock reading in nanoseconds, and the state
of the orchestrator keeps it. The parties do not run with it: they make an id of their own from the
name of the protocol, a number of parties and the whole seconds of the timestamp. Two executions of
a phase run with one id exactly if these agree, whatever session they belong to.
-/

namespace P2pMpc

open StateMachine MPCOrchestrator

variable {X : Platform}

/-- What the id of an execution is made from: its phase, a number of parties, a time in seconds. -/
abbrev Stamp := Phase × UInt16 × UInt64

/-- The name the parties of a phase begin their execution id with. -/
def Phase.protocolName : Phase → String
  | .aux => "aux_gen"
  | .keygen => "keygen"
  | .signing => "signing"

/-- The execution id a task runs the protocol with. -/
def Task.executionId : Task X → List UInt8
  | .aux p n ts _ => (p.generateAuxInfo n ts).eid
  | .keygen p n t ts _ => (p.generateKeyShare n t ts).eid
  | .signing p s m ts _ => (p.signMessage s m ts).eid

def Task.stamp : Task X → Stamp
  | .aux _ n ts _ => (.aux, n, ts)
  | .keygen _ n _ ts _ => (.keygen, n, ts)
  | .signing _ s _ ts _ => (.signing, UInt16.ofNat s.length, ts)

/-- The number of parties and the second an Initiate message stands for. -/
def CoordinationMessage.stamp : CoordinationMessage X → Option Stamp
  | .initiateAux _ _ _ timestamp =>
      timestamp.secsSinceEpoch.map fun ts => (.aux, auxTotalParties, ts)
  | .initiateKeygen _ _ n timestamp => timestamp.secsSinceEpoch.map fun ts => (.keygen, n, ts)
  | .initiateSigning _ _ s timestamp =>
      timestamp.secsSinceEpoch.map fun ts => (.signing, UInt16.ofNat s.length, ts)
  | _ => none

theorem Task.executionId_eq (t : Task X) :
    t.executionId = sharedExecutionId t.phase.protocolName t.stamp.2.1 t.stamp.2.2 := by
  cases t <;> rfl

theorem Task.stamp_phase (t : Task X) : t.stamp.1 = t.phase := by
  cases t <;> rfl

/-- The names of two phases differ. -/
theorem Phase.protocolName_inj {φ ψ : Phase} : φ.protocolName = ψ.protocolName ↔ φ = ψ := by
  constructor
  · intro h
    cases φ <;> cases ψ <;> first | rfl | exact absurd h (by decide)
  · rintro rfl
    rfl

/-- Two executions run with one id exactly if they have one stamp. -/
theorem Task.executionId_inj {t u : Task X} :
    t.executionId = u.executionId ↔ t.stamp = u.stamp := by
  rw [t.executionId_eq, u.executionId_eq, sharedExecutionId_inj, Phase.protocolName_inj,
    ← t.stamp_phase, ← u.stamp_phase, Prod.ext_iff, Prod.ext_iff]

/-- The implementation of `create_shared_execution_id` in the party of a phase. -/
def Phase.createSharedExecutionId : Phase → String → UInt16 → UInt64 → List UInt8
  | .aux => AuxParty.createSharedExecutionId
  | .keygen => KeygenParty.createSharedExecutionId
  | .signing => SigningParty.createSharedExecutionId

/-- The three implementations compute one function. -/
theorem Phase.createSharedExecutionId_eq (φ : Phase) :
    φ.createSharedExecutionId = sharedExecutionId := by
  cases φ <;> rfl

/-- Whichever two of the three implementations build them, two execution ids are equal exactly if
the names, the counts and the seconds are. Under the names the parties use, the ids of two phases
never collide, nor do those of two tasks unless they have one stamp. -/
theorem create_shared_execution_id_injective :
    (∀ (φ ψ : Phase) (p q : String) (n m : UInt16) (s t : UInt64),
      φ.createSharedExecutionId p n s = ψ.createSharedExecutionId q m t ↔
        p = q ∧ n = m ∧ s = t) ∧
    (∀ (φ ψ : Phase) (n m : UInt16) (s t : UInt64),
      φ.createSharedExecutionId φ.protocolName n s =
        ψ.createSharedExecutionId ψ.protocolName m t ↔ φ = ψ ∧ n = m ∧ s = t) ∧
    ∀ t u : Task X, t.executionId = u.executionId ↔ t.stamp = u.stamp := by
  refine ⟨fun φ ψ p q n m s t => ?_, fun φ ψ n m s t => ?_, fun t u => Task.executionId_inj⟩
  · rw [φ.createSharedExecutionId_eq, ψ.createSharedExecutionId_eq, sharedExecutionId_inj]
  · rw [φ.createSharedExecutionId_eq, ψ.createSharedExecutionId_eq, sharedExecutionId_inj,
      Phase.protocolName_inj]

/-- A name cannot take over the bytes of the count behind it. -/
example : AuxParty.createSharedExecutionId "aux_gen" 3 7 ≠
    KeygenParty.createSharedExecutionId "aux_gen\x00" 3 7 := by decide +kernel

theorem MPCOrchestrator.Starts.stamp {o : MPCOrchestrator X} {chan : ChannelId}
    {msg : CoordinationMessage X} {t : Task X} (h : o.Starts chan msg t) :
    msg.stamp = some t.stamp := by
  cases h with
  | aux _ _ _ timestamp i ts hc =>
    rw [CoordinationMessage.stamp, hc.1]
    rfl
  | keygen _ _ _ timestamp i ts _ hc =>
    rw [CoordinationMessage.stamp, hc.1]
    rfl
  | signing _ _ s timestamp i ts _ _ hc =>
    rw [CoordinationMessage.stamp, hc.1]
    rfl

namespace Node

variable {n n' : Node X} {l : NodeLabel X} {ls : List (NodeLabel X)}

/-- No two executions of one phase that the node has started run with one id. -/
def IdsFresh (n : Node X) : Prop :=
  ∀ φ, ((n.spawnedTasks.filter fun t => t.phase = φ).map Task.executionId).Nodup

/-- The stamps of the messages of a run for which the node starts an execution. -/
def startStamps (n : Node X) : List (NodeLabel X) → List Stamp
  | [] => []
  | l :: ls =>
      (if (n.starts l).isSome then (n.handled l).bind fun pm => pm.2.stamp else none).toList ++
        match n.step l with
        | none => []
        | some n' => n'.startStamps ls

theorem idsFresh_iff : n.IdsFresh ↔ (n.spawnedTasks.map Task.stamp).Nodup := by
  have hphase : n.IdsFresh ↔ ∀ φ, n.spawnedTasks.Pairwise fun t u =>
      t.phase = φ → u.phase = φ → t.executionId ≠ u.executionId := by
    refine forall_congr' fun φ => ?_
    rw [List.Nodup, List.pairwise_map, List.pairwise_filter]
    simp only [decide_eq_true_eq]
  rw [hphase, List.Nodup, List.pairwise_map]
  simp only [List.pairwise_iff_getElem]
  constructor
  · intro h i j hi hj hij he
    have hp : n.spawnedTasks[j].phase = n.spawnedTasks[i].phase := by
      rw [← Task.stamp_phase, ← Task.stamp_phase, he]
    exact h _ i j hi hj hij rfl hp (Task.executionId_inj.2 he)
  · intro h φ i j hi hj hij _ _ heid
    exact h i j hi hj hij (Task.executionId_inj.1 heid)

/-- A started execution has the stamp of its message. -/
theorem startStamps_eq (n : Node X) (ls : List (NodeLabel X)) :
    n.startStamps ls = (n.startedTasks ls).map Task.stamp := by
  induction ls generalizing n with
  | nil => rfl
  | cons l ls ih =>
    have hfirst : (if (n.starts l).isSome then (n.handled l).bind fun pm => pm.2.stamp
        else none) = (n.starts l).map Task.stamp := by
      cases hs : n.starts l with
      | none => rfl
      | some t =>
        obtain ⟨inst, p, msg, -, hl, hstarts⟩ := starts_eq_some hs
        rw [hl]
        exact hstarts.stamp
    rw [startStamps, startedTasks, hfirst, List.map_append, Option.toList_map]
    congr 1
    cases n.step l with
    | none => rfl
    | some n' => exact ih n'

end Node

/-- In every run of a node, through any number of sessions and replays: the executions of each phase
have different ids exactly if no two messages for which the node starts an execution of one phase
stand for the same number of parties and the same second. -/
theorem execution_ids_fresh_iff {n₀ n : Node X} {ls : List (NodeLabel X)}
    (h₀ : (nodeMachine X).init n₀) (h : (nodeMachine X).run n₀ ls = some n) :
    n.IdsFresh ↔ (n₀.startStamps ls).Nodup := by
  obtain ⟨id, rfl⟩ := h₀
  have hperm := (Node.run_spawnedTasks h).map Task.stamp
  rw [Node.idsFresh_iff, hperm.nodup_iff, Node.startStamps_eq]
  rfl

namespace SameSecondRun

/-- A Request of `a` for the session `sid`. -/
def request (sid : String) : NodeLabel .plain :=
  .receive (some "a") true 0
    (.assignment (.request "a" (.ofEntries [("a", 0), ("b", 1), ("c", 2)]) sid))

/-- The aux generation that `a` initiates at the time `t`. -/
def initiateAux (t : SystemTime) : NodeLabel .plain :=
  .receive (some "a") true 0 (.coordination (.initiateAux (createExecutionId "aux" t) []
    (.ofEntries [("a", 0), ("b", 1), ("c", 2)]) t))

/-- Two aux generations, each in a session of its own. -/
def labels (t u : SystemTime) : List (NodeLabel .plain) :=
  [request "a-5", initiateAux t, request "a-6", initiateAux u]

end SameSecondRun

/-- Two aux generations that are initiated 0.4 seconds apart under different execution ids run with
one id. -/
theorem same_second_reuses_id : ∃ n : Node .plain, (nodeMachine .plain).run (.new "b")
    (SameSecondRun.labels ⟨5500000000⟩ ⟨5900000000⟩) = some n ∧
      createExecutionId "aux" ⟨5500000000⟩ ≠ createExecutionId "aux" ⟨5900000000⟩ ∧
      (n.spawnedTasks.map Task.executionId).length = 2 ∧
      ¬ n.IdsFresh := by
  refine ⟨_, rfl, by decide +kernel, rfl, fun h => ?_⟩
  exact absurd (h .aux) (by decide +kernel)

/-- In the next second they are told apart. -/
theorem next_second_fresh : ∃ n : Node .plain, (nodeMachine .plain).run (.new "b")
    (SameSecondRun.labels ⟨5500000000⟩ ⟨6100000000⟩) = some n ∧ n.IdsFresh := by
  have hrun : ∃ n : Node .plain, (nodeMachine .plain).run (.new "b")
      (SameSecondRun.labels ⟨5500000000⟩ ⟨6100000000⟩) = some n := ⟨_, rfl⟩
  obtain ⟨n, hn⟩ := hrun
  exact ⟨n, hn, (execution_ids_fresh_iff ⟨"b", rfl⟩ hn).2 (by decide +kernel)⟩

end P2pMpc
