import P2pMpc.Delivery
import P2pMpc.Installed
import P2pMpc.PhaseMonotone

/-!
# The executions that messages belong to

An Initiate message starts one party on every node, all of the same phase and under one execution
id, which the orchestrator keeps in its state while the party runs. A protocol message carries
neither: `MpcAuxMessage` names a sender, a recipient and a payload, and the topic names the phase.

To speak of the execution a message comes from, a network is run here with a tag beside every
command and every packet, and with a log of what enters the channel of a party. The tags are taken
from the party that emits; no step looks at them, and every run of the network can be tagged.
-/

namespace P2pMpc

open StateMachine Lists

variable {X : Platform} {n : ℕ}

/-! ### Executions -/

/-- A phase and the execution id of the Initiate message that started it. -/
abbrev Execution := Phase × List UInt8

/-- The execution id that the state of a phase in progress names. -/
def ProtocolState.executionId : ProtocolState X → Option (List UInt8)
  | .auxGeneration _ executionId => some executionId
  | .keygen _ executionId _ => some executionId
  | .signing _ executionId _ _ => some executionId
  | _ => none

/-- The execution of the party of the phase, while it runs. Its orchestrator has then the state
under which it was spawned. -/
def Instance.execution (inst : Instance X) (φ : Phase) : Option Execution :=
  if inst.tasks.any fun t => t.runs φ then inst.orch.state.executionId.map (φ, ·) else none

namespace Node

/-- The orchestrators of a node whose tasks may be running: the installed one, then those it has
replaced. -/
def instances (m : Node X) : List (Instance X) := m.mpcOrchestrator.toList ++ m.retired

/-- The execution of the party that receives the messages of the phase. -/
def execution (m : Node X) (φ : Phase) : Option Execution :=
  m.mpcOrchestrator.bind fun inst => inst.execution φ

end Node

theorem Task.uncompleted_of_runs {t : Task X} {φ : Phase} (h : t.runs φ = true) :
    t.uncompleted = true ∧ t.phase = φ := by
  unfold Task.runs at h
  split at h <;> first | exact ⟨rfl, rfl⟩ | cases h

theorem ProtocolState.InProgress.executionId_eq {st : ProtocolState X} {φ : Phase} {e : List UInt8}
    (h : st.InProgress φ e) : st.executionId = some e := by
  cases st <;> first | exact h.elim | (obtain ⟨-, rfl⟩ := h; rfl)

namespace Instance

variable {inst : Instance X} {φ : Phase}

theorem execution_phase {x : Execution} (h : inst.execution φ = some x) : x.1 = φ := by
  unfold execution at h
  split_ifs at h
  obtain ⟨e, -, rfl⟩ := Option.map_eq_some_iff.1 h
  rfl

/-- A party that runs takes part in an execution. -/
theorem execution_of_runs (hs : Config.Shaped ⟨inst, none⟩)
    (h : (inst.tasks.any fun t => t.runs φ) = true) : ∃ e, inst.execution φ = some (φ, e) := by
  obtain ⟨t, ht, hruns⟩ := List.any_eq_true.1 h
  obtain ⟨hu, hφ⟩ := t.uncompleted_of_runs hruns
  obtain ⟨i, hi⟩ := List.mem_iff_getElem?.1 ht
  obtain ⟨⟨e, he⟩, -, -⟩ := hs.of_uncompleted hi hu
  refine ⟨e, ?_⟩
  rw [execution, if_pos h, he.executionId_eq]
  rfl

end Instance

/-! ### The tagged network -/

/-- The phase of a protocol message. -/
def Gossip.phase : Gossip X → Option Phase
  | .protocol φ _ => some φ
  | _ => none

/-- The phase of the protocol message of a command. -/
def NetworkCommand.phase : NetworkCommand X → Option Phase
  | .broadcast g => g.phase
  | .send φ _ => some φ

theorem NetworkCommand.gossip_phase {id : X.PeerId} {c : NetworkCommand X} {g : Gossip X}
    (h : c.gossip id = some g) : g.phase = c.phase := by
  cases c with
  | broadcast g' =>
    cases h
    rfl
  | send φ out =>
    obtain ⟨m, -, rfl⟩ := Option.map_eq_some_iff.1 h
    rfl

theorem Gossip.phase_eq_none {g : Gossip X} (h : g.isProtocol = false) : g.phase = none := by
  cases g <;> first | rfl | cases h

/-- A value that entered the channel of a party: the execution of the party that emitted it, and
that of the party it was sent to. -/
structure Entry (X : Platform) where
  forwarded : Forwarded X
  emitter : Option Execution
  receiver : Option Execution

/-- A network with the executions of the commands and of the packets, and what has entered the
channels of each host. -/
structure Traced (X : Platform) (n : ℕ) where
  net : Net X n
  queued : Fin n → List (Option Execution)
  flying : List (Option Execution)
  entered : Fin n → List (Entry X)

/-- A label of the network; the number says which of the node's orchestrators an emission comes
from. -/
abbrev TracedLabel (X : Platform) (n : ℕ) := NetLabel X n × ℕ

/-- The step sends a protocol message that no party has emitted. -/
def NetLabel.byHand : NetLabel X n → Bool
  | .act _ (.broadcast g) => g.isProtocol
  | _ => false

namespace Traced

/-- The execution of the party that a step has emit a message. -/
def emitter (s : Traced X n) : TracedLabel X n → Option Execution
  | (.act k (.emit φ _), j) =>
      (s.net.hosts k).node.instances[j]?.bind fun inst => inst.execution φ
  | _ => none

/-- An emission needs a party. -/
def enabled (s : Traced X n) (l : TracedLabel X n) : Bool :=
  match l.1 with
  | .act _ (.emit _ _) => (s.emitter l).isSome
  | _ => true

/-- What enters a channel of the host `k` when the packet at the position `i` is delivered. -/
def arrivals (s : Traced X n) (i : ℕ) (published : Bool) (now : UInt64) (k : Fin n) :
    List (Entry X) :=
  match s.net.wire[i]? with
  | none => []
  | some p =>
    if k = p.dest then
      ((s.net.hosts k).effect p.source published now p.content).forwarded.toList.map fun f =>
        ⟨f, s.flying[i]?.join, (s.net.hosts k).node.execution f.phase⟩
    else []

/-- The tags after a step to the network `t`. -/
def retag (s : Traced X n) (t : Net X n) (l : TracedLabel X n) : Traced X n :=
  match l.1 with
  | .act k _ =>
      { s with
        net := t
        queued := Function.update s.queued k
          (fill (s.queued k) (t.hosts k).queue.length (s.emitter l)) }
  | .process k _ =>
      { s with
        net := t
        queued := Function.update s.queued k (s.queued k).tail
        flying := fill s.flying t.wire.length (s.queued k).head?.join }
  | .deliver i published now =>
      { s with
        net := t
        flying := fill (s.flying.eraseIdx i) t.wire.length none
        entered := fun k => s.entered k ++ s.arrivals i published now k }

/-- A step of the network, with its tags. -/
def step (s : Traced X n) (l : TracedLabel X n) : Option (Traced X n) :=
  if s.enabled l then (s.net.step l.1).map fun t => s.retag t l else none

/-- The executions of the messages on their way to the host `k`: those in flight to it, and those
queued at the other hosts. -/
def pending (s : Traced X n) (k : Fin n) : List Execution :=
  ((s.net.wire.zip s.flying).filter fun e => e.1.dest = k).filterMap Prod.snd ++
    ((List.finRange n).filter (· ≠ k)).flatMap fun j => (s.queued j).filterMap id

end Traced

/-- The tagged network of `n` nodes with different peer ids, from their start on. -/
def tracedMachine (X : Platform) (n : ℕ) : Machine (Traced X n) (TracedLabel X n) where
  init s := (netMachine X n).init s.net ∧ (∀ k, s.queued k = [] ∧ s.entered k = []) ∧ s.flying = []
  step := Traced.step

/-! ### What a step of the network does to queues and packets -/

namespace Net

variable {s t : Net X n}

/-- A processed command leaves its channel; what it adds to the wire goes to the other hosts. -/
theorem process_spec {k : Fin n} {published : Bool} (h : s.step (.process k published) = some t) :
    ∃ c cs bs, (s.hosts k).queue = c :: cs ∧
      t.hosts = Function.update s.hosts k { s.hosts k with queue := cs } ∧
      t.wire = s.wire ++ bs ∧ ∀ p ∈ bs, p.dest ≠ k ∧ p.content.phase = c.phase := by
  obtain ⟨c, cs, hq, rfl⟩ := step_process_eq_some.1 h
  refine ⟨c, cs, _, hq, rfl, rfl, fun p hp => ?_⟩
  obtain ⟨g, hg, hp⟩ := List.mem_flatMap.1 hp
  obtain ⟨-, hdest, rfl⟩ := mem_packets.1 hp
  refine ⟨hdest, ?_⟩
  rw [Option.mem_toList] at hg
  split_ifs at hg
  exact NetworkCommand.gossip_phase hg

/-- A delivered packet leaves the wire; what its handling adds is no protocol message. -/
theorem deliver_spec {i : ℕ} {published : Bool} {now : UInt64}
    (h : s.step (.deliver i published now) = some t) :
    ∃ p bs, s.wire[i]? = some p ∧
      t.hosts = Function.update s.hosts p.dest
        ((s.hosts p.dest).receive p.source published now p.content) ∧
      t.wire = s.wire.eraseIdx i ++ bs ∧ ∀ q ∈ bs, q.content.phase = none := by
  obtain ⟨p, hp, rfl⟩ := step_deliver_eq_some.1 h
  refine ⟨p, _, hp, rfl, rfl, fun q hq => ?_⟩
  obtain ⟨g, hg, hq⟩ := List.mem_flatMap.1 hq
  obtain ⟨msg, hmsg⟩ := Node.onMessage_published (Option.mem_toList.1 hg)
  rw [(mem_packets.1 hq).2.2, hmsg]
  rfl

end Net

/-! ### Orchestrators that have been replaced -/

namespace Node

variable {m m' : Node X}

/-- An assignment message keeps the orchestrators of a node and adds at most a new one. -/
theorem handleAssignmentMessage_instances (m : Node X) (published : Bool) (now : UInt64)
    (msg : AssignmentMessage) {inst : Instance X}
    (h : inst ∈ (m.handleAssignmentMessage published now msg).1.instances) :
    inst ∈ m.instances ∨ ∃ assignments, inst = ⟨.ofAssignments m.id assignments, []⟩ := by
  have hinstall : ∀ (m₁ : Node X) assignments, m₁.instances = m.instances → m₁.id = m.id →
      inst ∈ (m₁.install assignments).instances →
      inst ∈ m.instances ∨ ∃ as, inst = ⟨.ofAssignments m.id as, []⟩ := by
    intro m₁ assignments hsame hid hmem
    rcases List.mem_cons.1 hmem with rfl | hmem
    · exact .inr ⟨assignments, by rw [hid]⟩
    · have hold : inst ∈ m₁.retired ++ m₁.mpcOrchestrator.toList := hmem
      left
      rw [← hsame]
      exact List.mem_append.2 (List.mem_append.1 hold).symm
  cases msg with
  | request coordinatorId assignments sid =>
    rcases m.handleRequest_cases published now coordinatorId assignments sid with
      ⟨-, he⟩ | ⟨i, -, ⟨-, he⟩ | ⟨-, -, he⟩⟩ <;> rw [he] at h
    · exact .inl h
    · exact .inl h
    · exact hinstall _ assignments rfl rfl h
  | acceptance peerId i sid =>
    rcases m.handleAcceptance_cases published now peerId i sid with
      ⟨-, he⟩ | ⟨session, -, ⟨-, he⟩ | ⟨-, he⟩⟩ <;> rw [he] at h
    · exact .inl h
    · exact .inl h
    · exact hinstall _ session.assignments rfl rfl h

/-- Every orchestrator of the node, replaced or not, has one of the shapes of a run. -/
def Shaped (m : Node X) : Prop := ∀ inst ∈ m.instances, Config.Shaped ⟨inst, none⟩

theorem Shaped.step (h : m.Shaped) {l : NodeLabel X} (hl : m.step l = some m') : m'.Shaped := by
  rcases step_cases hl with ⟨now, -, rfl⟩ | ⟨_, published, now, msg, -, -, rfl⟩ | ⟨-, -, hr, hw⟩
  · exact h
  · intro inst hinst
    rcases m.handleAssignmentMessage_instances published now msg hinst with hold | ⟨as, rfl⟩
    · exact h inst hold
    · exact .idle
  · intro inst hinst
    rcases List.mem_append.1 hinst with hslot | hretired
    · refine hw.shaped (fun inst hinst => h inst ?_) inst (Option.mem_toList.1 hslot)
      exact List.mem_append_left _ (Option.mem_toList.2 hinst)
    · rw [hr] at hretired
      exact h inst (List.mem_append_right _ hretired)

theorem Shaped.execution_of_isOpen (h : m.Shaped) {φ : Phase} (ho : m.isOpen φ = true) :
    ∃ e, m.execution φ = some (φ, e) := by
  obtain ⟨inst, chan, hinst, -, halive⟩ := Node.isOpen_iff.1 ho
  have hs := h inst (List.mem_append_left _ (Option.mem_toList.2 hinst))
  obtain ⟨e, he⟩ := Instance.execution_of_runs hs (Instance.runs_of_receiverAlive halive)
  refine ⟨e, ?_⟩
  rw [execution, hinst]
  exact he

/-- A value is only forwarded for a protocol message, and to a party that is running. -/
theorem forwarded_spec {source : Option X.PeerId} {published : Bool} {now : UInt64} {g : Gossip X}
    {f : Forwarded X} (h : (m.onMessage source published now g).forwarded = some f) :
    ∃ msg, g = .protocol f.phase msg ∧ m.isOpen f.phase = true := by
  unfold onMessage at h
  split at h
  · cases h
  · cases g with
    | protocol φ msg =>
      simp only [onProtocol] at h
      cases hfor : forwardIncoming m.id m.mpcOrchestrator φ msg with
      | error e => simp [hfor] at h
      | ok r =>
        obtain ⟨inst, inner, sender, chan, hinst, -, -, -, hchan, halive, rfl⟩ :=
          forwardIncoming_eq_ok.1 hfor
        rw [hfor] at h
        obtain rfl := Option.some.inj h
        exact ⟨msg, rfl, isOpen_iff.2 ⟨inst, chan, hinst, hchan, halive⟩⟩
    | _ => cases h

/-- Only an emission sends a protocol message, unless one is put together by hand. -/
theorem act_phase {a : Action X} {r : Node X × List (NetworkCommand X)} (h : m.act a = some r) :
    (∃ φ out, a = .emit φ out ∧ r = (m, [.send φ out]) ∧ m.canEmit φ = true) ∨
    (∃ g, a = .broadcast g ∧ r = (m, [.broadcast g])) ∨
    ((∀ φ out, a ≠ .emit φ out) ∧ ∀ c ∈ r.2, c.phase = none) := by
  rcases act_sends h with ⟨φ, out, he, hcan, hr⟩ | ⟨g, he, hr⟩ | ⟨now, rfl, he⟩ |
      ⟨p, msg, hmsg, he⟩ | ⟨hne, he⟩
  · exact .inl ⟨φ, out, he, hr, hcan⟩
  · exact .inr (.inl ⟨g, he, hr⟩)
  · refine .inr (.inr ⟨by simp, fun c hc => ?_⟩)
    rw [he] at hc
    rw [List.mem_singleton.1 hc]
    rfl
  · refine .inr (.inr ⟨?_, fun c hc => ?_⟩)
    · rintro φ out rfl
      cases hmsg
    · rw [he] at hc
      rw [List.mem_singleton.1 hc]
      rfl
  · exact .inr (.inr ⟨hne, by simp [he]⟩)

end Node

/-! ### The tags of a run -/

namespace Traced

variable {s t : Traced X n} {l : TracedLabel X n}

@[simp] theorem retag_net (s : Traced X n) (u : Net X n) (l : TracedLabel X n) :
    (s.retag u l).net = u := by
  unfold retag
  split <;> rfl

theorem step_eq_some : s.step l = some t ↔
    s.enabled l = true ∧ s.net.step l.1 = some t.net ∧ t = s.retag t.net l := by
  rw [step, Option.ite_none_right_eq_some, Option.map_eq_some_iff]
  constructor
  · rintro ⟨he, u, hu, rfl⟩
    rw [retag_net]
    exact ⟨he, hu, rfl⟩
  · rintro ⟨he, hu, ht⟩
    exact ⟨he, t.net, hu, ht.symm⟩

/-- The tags fit the queues, the packets and the log, and name the phase of each message. -/
structure Tagged (s : Traced X n) : Prop where
  shaped : ∀ k, (s.net.hosts k).node.Shaped
  queued_length : ∀ k, (s.queued k).length = (s.net.hosts k).queue.length
  flying_length : s.flying.length = s.net.wire.length
  commands : ∀ k, ∀ e ∈ (s.net.hosts k).queue.zip (s.queued k), e.1.phase = e.2.map Prod.fst
  packets : ∀ e ∈ s.net.wire.zip s.flying, e.1.content.phase = e.2.map Prod.fst

/-- The tag of an emission names its phase. -/
theorem emitter_phase {k : Fin n} {φ : Phase} {out : Outgoing (X.Msg φ)} {j : ℕ}
    (he : s.enabled (.act k (.emit φ out), j) = true) :
    ∃ e, s.emitter (.act k (.emit φ out), j) = some (φ, e) := by
  obtain ⟨⟨φ', e⟩, hx⟩ := Option.isSome_iff_exists.1 he
  obtain ⟨inst, -, hinst⟩ := Option.bind_eq_some_iff.1 hx
  obtain rfl : φ' = φ := Instance.execution_phase hinst
  exact ⟨e, hx⟩

/-- What an action adds to the command channel has the phase of its tag. -/
theorem act_tags {k : Fin n} {a : Action X} {j : ℕ} {r : Node X × List (NetworkCommand X)}
    (hr : (s.net.hosts k).node.act a = some r) (he : s.enabled (.act k a, j) = true)
    (hhand : (NetLabel.act k a : NetLabel X n).byHand = false) :
    ∀ c ∈ r.2, c.phase = (s.emitter (.act k a, j)).map Prod.fst := by
  have hnone : (∀ φ out, a ≠ .emit φ out) → s.emitter (.act k a, j) = none := by
    intro hne
    cases a <;> first | rfl | exact absurd rfl (hne _ _)
  rcases Node.act_phase hr with ⟨φ, out, rfl, rfl, -⟩ | ⟨g, rfl, rfl⟩ | ⟨hne, hphase⟩
  · obtain ⟨e, hx⟩ := emitter_phase he
    intro c hc
    rw [List.mem_singleton.1 hc, hx]
    rfl
  · intro c hc
    rw [List.mem_singleton.1 hc, hnone (by rintro _ _ ⟨⟩)]
    exact Gossip.phase_eq_none hhand
  · intro c hc
    rw [hphase c hc, hnone hne]
    rfl

/-! ### What a step does to the tags -/

/-- An action tags the commands it adds to the channel of its host. -/
theorem act_spec {k : Fin n} {a : Action X} {j : ℕ} (h : s.step (.act k a, j) = some t) :
    ∃ r, (s.net.hosts k).node.act a = some r ∧
      (∀ i, (t.net.hosts i).queue = (s.net.hosts i).queue ++ if i = k then r.2 else []) ∧
      (∀ i, t.queued i = if i = k then
        fill (s.queued k) (t.net.hosts k).queue.length (s.emitter (.act k a, j))
          else s.queued i) ∧
      t.net.wire = s.net.wire ∧ t.flying = s.flying ∧ t.entered = s.entered := by
  obtain ⟨-, hnet, ht⟩ := step_eq_some.1 h
  obtain ⟨r, hr, hhost⟩ := Net.step_act_eq_some.1 hnet
  refine ⟨r, hr, fun i => ?_, fun i => ?_, ?_⟩
  · rw [hhost, Net.hosts_setHost]
    split_ifs with hik
    · subst hik
      rfl
    · exact (List.append_nil _).symm
  · rw [ht]
    exact Function.update_apply _ _ _ _
  · rw [ht, hhost]
    exact ⟨rfl, rfl, rfl⟩

/-- A processed command takes its tag along, and its packets get it. -/
theorem process_spec (hs : s.Tagged) {k : Fin n} {published : Bool} {j : ℕ}
    (h : s.step (.process k published, j) = some t) :
    ∃ c cs y ys bs, (s.net.hosts k).queue = c :: cs ∧ s.queued k = y :: ys ∧
      (∀ i, (t.net.hosts i).queue = if i = k then cs else (s.net.hosts i).queue) ∧
      (∀ i, t.queued i = if i = k then ys else s.queued i) ∧
      t.net.wire = s.net.wire ++ bs ∧ t.flying = fill s.flying (s.net.wire ++ bs).length y ∧
      t.entered = s.entered ∧ ∀ p ∈ bs, p.dest ≠ k ∧ p.content.phase = c.phase := by
  obtain ⟨-, hnet, ht⟩ := step_eq_some.1 h
  obtain ⟨c, cs, bs, hq, hhosts, hwire, hbs⟩ := Net.process_spec hnet
  have hlen := hs.queued_length k
  cases hy : s.queued k with
  | nil => simp [hq, hy] at hlen
  | cons y ys =>
    refine ⟨c, cs, y, ys, bs, hq, rfl, fun i => ?_, fun i => ?_, hwire, ?_, ?_, hbs⟩
    · rw [hhosts, Function.update_apply]
      split_ifs <;> rfl
    · rw [ht]
      show Function.update s.queued k (s.queued k).tail i = _
      rw [hy, Function.update_apply]
      rfl
    · rw [ht, ← hwire]
      show fill s.flying t.net.wire.length (s.queued k).head?.join = _
      rw [hy]
      rfl
    · rw [ht]
      rfl

/-- A delivered packet takes its tag along; what its handling publishes has none. -/
theorem deliver_spec {i : ℕ} {published : Bool} {now : UInt64} {j : ℕ}
    (h : s.step (.deliver i published now, j) = some t) :
    ∃ p bs, s.net.wire[i]? = some p ∧
      t.net.hosts = Function.update s.net.hosts p.dest
        ((s.net.hosts p.dest).receive p.source published now p.content) ∧
      (∀ k, (t.net.hosts k).queue = (s.net.hosts k).queue) ∧ t.queued = s.queued ∧
      t.net.wire = s.net.wire.eraseIdx i ++ bs ∧
      t.flying = fill (s.flying.eraseIdx i) (s.net.wire.eraseIdx i ++ bs).length none ∧
      (∀ k, t.entered k = s.entered k ++ s.arrivals i published now k) ∧
      ∀ q ∈ bs, q.content.phase = none := by
  obtain ⟨-, hnet, ht⟩ := step_eq_some.1 h
  obtain ⟨p, bs, hp, hhosts, hwire, hbs⟩ := Net.deliver_spec hnet
  refine ⟨p, bs, hp, hhosts, fun k => ?_, ?_, hwire, ?_, fun k => ?_, hbs⟩
  · rw [hhosts, Function.update_apply]
    split_ifs with hk
    · subst hk
      rfl
    · rfl
  · rw [ht]
    rfl
  · rw [ht, ← hwire]
    rfl
  · rw [ht]
    rfl

theorem Tagged.flying_eraseIdx (hs : s.Tagged) (i : ℕ) :
    (s.flying.eraseIdx i).length = (s.net.wire.eraseIdx i).length := by
  rw [List.length_eraseIdx, List.length_eraseIdx, hs.flying_length]

/-! ### The tags fit -/

namespace Tagged

theorem shaped_step (hs : s.Tagged) (h : s.step l = some t) (k : Fin n) :
    (t.net.hosts k).node.Shaped := by
  rcases Net.step_node (step_eq_some.1 h).2.1 k with hsame | ⟨nl, hnl⟩
  · rw [hsame]
    exact hs.shaped k
  · exact (hs.shaped k).step hnl

theorem act (hs : s.Tagged) {k : Fin n} {a : Action X} {j : ℕ}
    (h : s.step (.act k a, j) = some t)
    (hhand : (NetLabel.act k a : NetLabel X n).byHand = false) : t.Tagged := by
  obtain ⟨r, hr, hqueue, hqueued, hwire, hflying, -⟩ := act_spec h
  have htags := act_tags hr (step_eq_some.1 h).1 hhand
  refine ⟨hs.shaped_step h, fun i => ?_, ?_, fun i e hmem => ?_, ?_⟩
  · rw [hqueued]
    split_ifs with hik
    · subst hik
      apply length_fill
      rw [hs.queued_length, hqueue, List.length_append]
      omega
    · rw [hs.queued_length, hqueue, if_neg hik, List.append_nil]
  · rw [hwire, hflying]
    exact hs.flying_length
  · rw [hqueued] at hmem
    split_ifs at hmem with hik
    · subst hik
      rw [hqueue, if_pos rfl] at hmem
      rcases mem_zip_fill (hs.queued_length i) hmem with hold | ⟨hnew, htag⟩
      · exact hs.commands i e hold
      · rw [htag]
        exact htags e.1 hnew
    · rw [hqueue, if_neg hik, List.append_nil] at hmem
      exact hs.commands i e hmem
  · rw [hwire, hflying]
    exact hs.packets

theorem process (hs : s.Tagged) {k : Fin n} {published : Bool} {j : ℕ}
    (h : s.step (.process k published, j) = some t) : t.Tagged := by
  obtain ⟨c, cs, y, ys, bs, hq, hy, hqueue, hqueued, hwire, hflying, -, hbs⟩ := process_spec hs h
  have hlen := hs.queued_length k
  have hphase : c.phase = y.map Prod.fst := hs.commands k (c, y) (by simp [hq, hy])
  refine ⟨hs.shaped_step h, fun i => ?_, ?_, fun i e hmem => ?_, fun e hmem => ?_⟩
  · rw [hqueue, hqueued]
    split_ifs
    · simpa [hq, hy] using hlen
    · exact hs.queued_length i
  · rw [hflying, hwire]
    apply length_fill
    rw [hs.flying_length, List.length_append]
    omega
  · rw [hqueue, hqueued] at hmem
    split_ifs at hmem with hik
    · subst hik
      apply hs.commands i e
      rw [hq, hy]
      exact List.mem_cons_of_mem _ hmem
    · exact hs.commands i e hmem
  · rw [hflying, hwire] at hmem
    rcases mem_zip_fill hs.flying_length hmem with hold | ⟨hnew, htag⟩
    · exact hs.packets e hold
    · rw [htag, (hbs e.1 hnew).2]
      exact hphase

theorem deliver (hs : s.Tagged) {i : ℕ} {published : Bool} {now : UInt64} {j : ℕ}
    (h : s.step (.deliver i published now, j) = some t) : t.Tagged := by
  obtain ⟨p, bs, -, -, hqueue, hqueued, hwire, hflying, -, hbs⟩ := deliver_spec h
  have hlen := hs.flying_eraseIdx i
  refine ⟨hs.shaped_step h, fun k => ?_, ?_, fun k e hmem => ?_, fun e hmem => ?_⟩
  · rw [hqueue, hqueued]
    exact hs.queued_length k
  · rw [hflying, hwire]
    apply length_fill
    rw [hlen, List.length_append]
    omega
  · rw [hqueue, hqueued] at hmem
    exact hs.commands k e hmem
  · rw [hflying, hwire] at hmem
    rcases mem_zip_fill hlen hmem with hold | ⟨hnew, htag⟩
    · exact hs.packets e (mem_zip_eraseIdx hold)
    · rw [htag, hbs e.1 hnew]
      rfl

/-- Every step keeps the tags right, unless it sends a protocol message put together by hand. -/
theorem step (hs : s.Tagged) (h : s.step l = some t) (hhand : l.1.byHand = false) : t.Tagged := by
  obtain ⟨l, j⟩ := l
  cases l with
  | act k a => exact hs.act h hhand
  | process k published => exact hs.process h
  | deliver i published now => exact hs.deliver h

theorem of_init (h : (tracedMachine X n).init s) : s.Tagged := by
  obtain ⟨⟨ids, -, hnet⟩, hempty, hflying⟩ := h
  refine ⟨fun k => ?_, fun k => ?_, ?_, fun k e he => ?_, fun e he => ?_⟩
  · rw [hnet]
    rintro _ ⟨⟩
  · rw [(hempty k).1, hnet]
    rfl
  · rw [hflying, hnet]
    rfl
  · rw [(hempty k).1, List.zip_nil_right] at he
    cases he
  · rw [hflying, List.zip_nil_right] at he
    cases he

end Tagged

/-! ### Every run can be tagged -/

/-- Whatever step the network can take, it can take with tags. -/
theorem exists_step (hs : ∀ k, (s.net.hosts k).node.Shaped) {nl : NetLabel X n} {u : Net X n}
    (h : s.net.step nl = some u) : ∃ j t, s.step (nl, j) = some t ∧ t.net = u := by
  have hstep : ∀ j, s.enabled (nl, j) = true →
      s.step (nl, j) = some (s.retag u (nl, j)) ∧ (s.retag u (nl, j)).net = u := by
    intro j he
    refine ⟨step_eq_some.2 ⟨he, ?_, ?_⟩, retag_net _ _ _⟩
    · rw [retag_net]
      exact h
    · rw [retag_net]
  suffices ∃ j, s.enabled (nl, j) = true by
    obtain ⟨j, he⟩ := this
    exact ⟨j, _, hstep j he⟩
  -- an emission needs the number of an orchestrator whose party runs
  by_cases hemit : ∃ k φ out, nl = .act k (.emit φ out)
  · obtain ⟨k, φ, out, rfl⟩ := hemit
    obtain ⟨r, hr, -⟩ := Net.step_act_eq_some.1 h
    have hcan : (s.net.hosts k).node.canEmit φ = true := (Option.ite_none_right_eq_some.1 hr).1
    obtain ⟨inst, hinst, hruns⟩ := List.any_eq_true.1 hcan
    obtain ⟨j, hj⟩ := List.mem_iff_getElem?.1 hinst
    obtain ⟨e, he⟩ := Instance.execution_of_runs (hs k inst hinst) hruns
    refine ⟨j, Option.isSome_iff_exists.2 ⟨(φ, e), ?_⟩⟩
    exact Option.bind_eq_some_iff.2 ⟨inst, hj, he⟩
  · refine ⟨0, ?_⟩
    unfold enabled
    split
    · exact absurd ⟨_, _, _, by assumption⟩ hemit
    · rfl

theorem exists_run (hs : ∀ k, (s.net.hosts k).node.Shaped) {nls : List (NetLabel X n)} {u : Net X n}
    (h : (netMachine X n).run s.net nls = some u) : ∃ ls t, ls.map Prod.fst = nls ∧
      (tracedMachine X n).run s ls = some t ∧ t.net = u := by
  induction nls generalizing s with
  | nil => exact ⟨[], s, rfl, rfl, Option.some.inj h⟩
  | cons nl nls ih =>
    obtain ⟨v, hv, hu⟩ := Machine.run_cons_eq_some.1 h
    obtain ⟨j, s₁, hs₁, hnet⟩ := exists_step hs hv
    have hshaped : ∀ k, (s₁.net.hosts k).node.Shaped := by
      intro k
      rw [hnet]
      rcases Net.step_node hv k with hsame | ⟨l, hl⟩
      · rw [hsame]
        exact hs k
      · exact (hs k).step hl
    obtain ⟨ls, t, hls, hr, ht⟩ := ih hshaped (hnet ▸ hu)
    exact ⟨(nl, j) :: ls, t, by rw [List.map_cons, hls],
      Machine.run_cons_eq_some.2 ⟨s₁, hs₁, hr⟩, ht⟩

end Traced

end P2pMpc
